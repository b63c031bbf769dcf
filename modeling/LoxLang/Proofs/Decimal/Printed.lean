import LoxLang.Proofs.Decimal.Grids
import LoxLang.Proofs.Decimal.Numerals
import LoxLang.Proofs.Decimal.Reading
import LoxLang.Proofs.Token.Reading
import LoxLang.Value

/-!
# Printed numbers

The text of a number is a numeral that denotes its shortest decimal, and reads back as the number.

* **`numeral?`** — the numeral that is printed for a shape, if one is; `printed_chars` is its text.
* **`printed_injective`** — two numbers that are printed alike are equal but for the sign of a zero.
* **`scan_numeral`** — the text of a numeral without sign and exponent is scanned to one token.
* **`printed_numbers_exact`** — what is printed is exact.
-/

namespace LoxLang

/-! ## The digits that are printed

The shortest decimal has no zero at its end, and it is not zero. Its value lies between the powers of ten that its point
tells. -/

section

variable {m : Nat} {q : Int} {narrow : Bool}

theorem Decimal.value_eq_digits (d : Decimal) :
    d.value = decimalValue d.digits * 10 ^ (d.point - d.digits.length) := by
  rw [Decimal.value, Decimal.digits, decimalValue_toDigits, Decimal.point, Decimal.digits, Int.add_sub_cancel]

/-- The number `0.d₁…dₖ · 10 ^ point`. -/
theorem Decimal.value_eq_point (d : Decimal) :
    d.value = decimalValue d.digits / 10 ^ d.digits.length * 10 ^ d.point := by
  rw [d.value_eq_digits, zpow_sub₀ (by norm_num), zpow_natCast]
  ring

/-- The value of a decimal lies in the decade that the place of its point says. -/
theorem Decimal.value_bounds (d : Decimal) (hpos : 0 < d.coefficient) :
    (10 : ℚ) ^ (d.point - 1) ≤ d.value ∧ d.value < 10 ^ d.point := by
  obtain ⟨k, hk⟩ : ∃ k, d.digits.length = k + 1 := ⟨d.digits.length - 1, by
    have : 0 < d.digits.length := Nat.length_toDigits_pos
    omega⟩
  -- as many digits as the coefficient has, so many powers of ten it lies under
  have hhigh : d.coefficient < 10 ^ (k + 1) := (Nat.length_toDigits_le_iff (by norm_num) k.succ_pos).mp hk.le
  have hlow : 10 ^ k ≤ d.coefficient := by
    rcases Nat.eq_zero_or_pos k with rfl | hk0
    · exact hpos
    · by_contra hlt
      have := (Nat.length_toDigits_le_iff (by norm_num) hk0).mpr (not_le.mp hlt)
      rw [Decimal.digits] at hk
      omega
  have hpow : ∀ n : Nat, (10 : ℚ) ^ (d.exponent + n) = (10 ^ n : Nat) * 10 ^ d.exponent := by
    intro n
    rw [zpow_add₀ (by norm_num), zpow_natCast, mul_comm]
    push_cast
    rfl
  rw [Decimal.value, Decimal.point, hk, hpow, show d.exponent + ((k + 1 : Nat) : Int) - 1 = d.exponent + (k : Nat) by
    push_cast; ring, hpow]
  exact ⟨mul_le_mul_of_nonneg_right (by exact_mod_cast hlow) (ten_zpow_pos _).le,
    mul_lt_mul_of_pos_right (by exact_mod_cast hhigh) (ten_zpow_pos _)⟩

/-- The numeral of a decimal. -/
def Decimal.numeral (negative : Bool) (d : Decimal) : Numeral :=
  .ofDigits negative d.digits d.point

theorem Decimal.numeral_value (negative : Bool) (d : Decimal) :
    (d.numeral negative).value = (if negative then -1 else 1) * d.value := by
  have hne : d.digits ≠ [] := Nat.toDigits_ne_nil
  rw [Decimal.numeral, Numeral.ofDigits_value hne, d.value_eq_digits]

theorem shortest_numeral_tidy (hd : IsDouble m q narrow) (negative : Bool) :
    ((Decimal.shortest m q narrow).numeral negative).Tidy :=
  Numeral.ofDigits_tidy (fun _ => isDigit_of_mem_toDigits) (head_toDigits_ne (shortest_pos hd))
    (getLast_toDigits_ne (shortest_mod_ten hd)) Nat.toDigits_ne_nil

/-- An exponent is printed exactly for the numbers from `10 ^ 21` on and for those below `10 ^ -6`. -/
theorem Decimal.numeral_exponent? (negative : Bool) (d : Decimal) (hpos : 0 < d.coefficient) :
    (d.numeral negative).exponent?.isSome = true ↔ 10 ^ 21 ≤ d.value ∨ d.value < 10 ^ (-6 : Int) := by
  obtain ⟨hlow, hhigh⟩ := d.value_bounds hpos
  have hlarge : 21 < d.point ↔ 10 ^ 21 ≤ d.value := by
    constructor
    · intro h
      refine le_trans ?_ hlow
      exact_mod_cast zpow_le_zpow_right₀ (by norm_num : (1 : ℚ) ≤ 10) (by omega : (21 : Int) ≤ d.point - 1)
    · intro h
      have := (zpow_lt_zpow_iff_right₀ (by norm_num : (1 : ℚ) < 10)).mp (by exact_mod_cast h.trans_lt hhigh : (10 : ℚ) ^ (21 : Int) < 10 ^ d.point)
      exact this
  have hsmall : d.point ≤ -6 ↔ d.value < 10 ^ (-6 : Int) := by
    constructor
    · intro h
      exact hhigh.trans_le (zpow_le_zpow_right₀ (by norm_num) h)
    · intro h
      have := (zpow_lt_zpow_iff_right₀ (by norm_num : (1 : ℚ) < 10)).mp (hlow.trans_lt h)
      omega
  rw [Decimal.numeral, Numeral.ofDigits_exponent?, hlarge, hsmall, or_comm]

end

/-! ## The numeral of a shape

A double that is a number is printed as a numeral or as a word for infinity, and no numeral is that word. -/

/-- The numeral that is printed for a number; none for infinities and for what is no number. -/
def FloatShape.numeral? : FloatShape → Option Numeral
  | zero _ => some ⟨false, ['0'], [], none⟩
  | finite negative m q narrow => some ((Decimal.shortest m q narrow).numeral negative)
  | _ => none

/-- What is printed is the text of the numeral. -/
theorem printed_chars {shape : FloatShape} {n : Numeral} (h : shape.numeral? = some n) :
    Layout.printed.chars shape = n.chars := by
  cases shape with
  | zero negative =>
    cases h
    cases negative <;> rfl
  | finite negative m q narrow =>
    cases h
    exact (Numeral.ofDigits_chars _).symm
  | nan => cases h
  | infinite negative => cases h

/-- The numeral of a double is tidy, so that its parts can be read back from the text. -/
theorem numeral_tidy {x : Float} {n : Numeral} (h : (FloatShape.of x).numeral? = some n) : n.Tidy := by
  cases hshape : FloatShape.of x with
  | zero negative =>
    rw [hshape] at h
    cases h
    constructor <;> simp
  | finite negative m q narrow =>
    rw [hshape] at h
    cases h
    exact shortest_numeral_tidy (isDouble_of_shape hshape) negative
  | nan =>
    rw [hshape] at h
    cases h
  | infinite negative =>
    rw [hshape] at h
    cases h

/-- The numeral tells the number, but for the sign of a zero. -/
theorem unsigned_eq_of_numeral {x y : Float} {n : Numeral} (hx : (FloatShape.of x).numeral? = some n)
    (hy : (FloatShape.of y).numeral? = some n) : (FloatShape.of x).unsigned = (FloatShape.of y).unsigned := by
  -- the numeral of a finite double has a positive magnitude, so it is not that of a zero
  have hzero : ∀ {negative m q narrow}, IsDouble m q narrow →
      some (Numeral.mk false ['0'] [] none) ≠ some ((Decimal.shortest m q narrow).numeral negative) := by
    intro negative m q narrow hd h
    have hvalue := congrArg Numeral.value (Option.some.inj h)
    have hpos := (shortest_spec hd).1.pos hd.pos
    rw [Decimal.numeral_value] at hvalue
    norm_num [Numeral.value, decimalValue] at hvalue
    split at hvalue <;> linarith
  cases hshape : FloatShape.of x with
  | zero negative =>
    cases hshape' : FloatShape.of y with
    | zero negative' => rfl
    | finite negative' m q narrow =>
      rw [hshape] at hx
      rw [hshape'] at hy
      exact absurd (hx.trans hy.symm) (hzero (isDouble_of_shape hshape'))
    | _ => rw [hshape'] at hy; cases hy
  | finite negative m q narrow =>
    have hd := isDouble_of_shape hshape
    cases hshape' : FloatShape.of y with
    | zero negative' =>
      rw [hshape] at hx
      rw [hshape'] at hy
      exact absurd (hy.trans hx.symm) (hzero hd)
    | finite negative' m' q' narrow' =>
      have hd' := isDouble_of_shape hshape'
      rw [hshape] at hx
      rw [hshape'] at hy
      have heq := Option.some.inj (hx.trans hy.symm)
      obtain rfl : negative = negative' := by
        have := congrArg Numeral.negative heq
        rwa [Decimal.numeral, Decimal.numeral, Numeral.ofDigits_negative, Numeral.ofDigits_negative] at this
      have hvalue : (Decimal.shortest m q narrow).value = (Decimal.shortest m' q' narrow').value := by
        have := congrArg Numeral.value heq
        rw [Decimal.numeral_value, Decimal.numeral_value] at this
        refine mul_left_cancel₀ ?_ this
        split <;> norm_num
      obtain ⟨rfl, rfl, rfl⟩ := hd.unique hd' (shortest_spec hd).1 (hvalue ▸ (shortest_spec hd').1)
      rfl
    | _ => rw [hshape'] at hy; cases hy
  | _ => rw [hshape] at hx; cases hx

/-- The text of an infinity is no numeral. -/
theorem numeral_chars_ne_infinity {x : Float} {n : Numeral} (h : (FloatShape.of x).numeral? = some n) (negative : Bool) :
    n.chars ≠ Layout.signed negative Layout.printed.infinity := by
  intro heq
  have htidy := numeral_tidy h
  have hread := congrArg (fun text => (Numeral.read text).whole) heq
  rw [Numeral.read_chars htidy] at hread
  have hdigit := htidy.whole_digits 'I' (by rw [hread]; cases negative <;> decide)
  exact absurd hdigit (by decide)

/-- A number has a numeral unless it is infinite. -/
theorem numeral?_isSome {x : Float} (hx : x.isNaN = false) :
    (∃ n, (FloatShape.of x).numeral? = some n) ∨ ∃ negative, FloatShape.of x = .infinite negative := by
  cases hshape : FloatShape.of x with
  | nan =>
    rw [(isNaN_iff x).mpr hshape] at hx
    cases hx
  | infinite negative => exact .inr ⟨negative, rfl⟩
  | _ => exact .inl ⟨_, rfl⟩

/-- **Numbers that are printed alike** are equal, but for the sign of a zero. -/
theorem printed_injective {x y : Float} (hx : x.isNaN = false) (hy : y.isNaN = false)
    (h : Layout.printed.chars (.of x) = Layout.printed.chars (.of y)) :
    (FloatShape.of x).unsigned = (FloatShape.of y).unsigned := by
  rcases numeral?_isSome hx with ⟨n, hn⟩ | ⟨negative, hinfinite⟩ <;>
    rcases numeral?_isSome hy with ⟨n', hn'⟩ | ⟨negative', hinfinite'⟩
  · rw [printed_chars hn, printed_chars hn'] at h
    have heq := congrArg Numeral.read h
    rw [Numeral.read_chars (numeral_tidy hn), Numeral.read_chars (numeral_tidy hn')] at heq
    exact unsigned_eq_of_numeral hn (heq ▸ hn')
  · rw [printed_chars hn, hinfinite'] at h
    exact absurd h (numeral_chars_ne_infinity hn negative')
  · rw [printed_chars hn', hinfinite] at h
    exact absurd h.symm (numeral_chars_ne_infinity hn' negative)
  · rw [hinfinite, hinfinite'] at h ⊢
    obtain rfl : negative = negative' := by
      cases negative <;> cases negative' <;> first | rfl | exact absurd h (by decide)
    rfl

theorem not_isNaN {x : Float} (h : FloatShape.of x ≠ .nan) : x.isNaN = false :=
  Bool.eq_false_iff.mpr fun hx => h ((isNaN_iff x).mp hx)

theorem printed_unsigned (shape : FloatShape) : Layout.printed.chars shape.unsigned = Layout.printed.chars shape := by
  cases shape with
  | zero negative => cases negative <;> rfl
  | _ => rfl

/-! ## Scanning a numeral

Without sign and exponent a numeral is a lexeme of a number, and the scanner reads it as one token. The value it gives
is the double whose interval the decimal lies in. -/

/-- A text that is a lexeme is cut into that one piece. -/
theorem cut_lexeme {kind : Kind} {w : List Char} (h : Lexeme kind w) (hcomment : ¬ ['/', '/'] <+: w) :
    cut w = [.token kind w] := by
  refine (isCut_cut w).unique ?_
  have hfront : (Piece.token kind w).Fronts (w ++ []) := by
    rw [List.append_nil]
    exact ⟨h, List.prefix_rfl, hcomment, fun k w' _ hw' => hw'.length_le⟩
  have hcut := @IsCut.cons (.token kind w) [] [] hfront .nil
  rwa [show (Piece.token kind w).text ++ [] = w from List.append_nil w] at hcut

/-- The text of a numeral without sign and exponent is the lexeme of a number. -/
theorem lexeme_numeral {n : Numeral} (h : n.Tidy) (hnegative : n.negative = false) (hexponent : n.exponent? = none) :
    Lexeme .number n.chars := by
  have hwhole : ∀ c ∈ n.whole, IsDigit c := fun c hc => isDigit_iff.mp (h.whole_digits c hc)
  have hfraction : ∀ c ∈ n.fraction, IsDigit c := fun c hc => isDigit_iff.mp (h.fraction_digits c hc)
  rw [Numeral.chars, hnegative, hexponent, Numeral.exponentChars, List.append_nil, Numeral.fractionChars]
  change Lexeme .number (_ ++ _)
  split
  case isTrue =>
    rw [List.append_nil]
    exact .whole h.whole_ne_nil hwhole
  case isFalse hne => exact .fraction h.whole_ne_nil hwhole hne hfraction

/-- The value of such a lexeme is read off the digits of the numeral. -/
theorem numberValue_numeral {n : Numeral} (h : n.Tidy) (hnegative : n.negative = false) (hexponent : n.exponent? = none) :
    numberValue n.chars = Float.ofScientific (decimalValue (n.whole ++ n.fraction)) true n.fraction.length := by
  have hpoint : ∀ c, (Numeral.fractionChars n.fraction).head? = some c → c.isDigit = false := by
    intro c hc
    unfold Numeral.fractionChars at hc
    split at hc
    · cases hc
    · cases hc
      rfl
  obtain ⟨htake, hdrop⟩ := Numeral.takeWhile_dropWhile_append h.whole_digits hpoint
  have htail : (Numeral.fractionChars n.fraction).drop 1 = n.fraction := by
    unfold Numeral.fractionChars
    split
    case isTrue hnil => rw [hnil, List.drop_nil]
    case isFalse => rfl
  rw [Numeral.chars, hnegative, hexponent, Numeral.exponentChars, List.append_nil]
  change numberValue (n.whole ++ Numeral.fractionChars n.fraction) = _
  simp only [numberValue, htake, hdrop, htail]

/-- Scanning the text of a numeral without sign and exponent. -/
theorem scan_numeral {n : Numeral} (h : n.Tidy) (hnegative : n.negative = false) (hexponent : n.exponent? = none) :
    scan (String.ofList n.chars) = ⟨[⟨.number, String.ofList n.chars,
      .number (Float.ofScientific (decimalValue (n.whole ++ n.fraction)) true n.fraction.length), 1⟩, .eof 1], []⟩ := by
  have hlexeme := lexeme_numeral h hnegative hexponent
  have hdigits : ∀ c ∈ n.chars, c ≠ '/' ∧ c ≠ '\n' := by
    intro c hc
    rw [Numeral.chars, hnegative, hexponent, Numeral.exponentChars, List.append_nil] at hc
    exact ⟨h.mantissa_ne hc (by decide) (by decide), h.mantissa_ne hc (by decide) (by decide)⟩
  have hcut := cut_lexeme hlexeme (fun hpre => (hdigits '/' (hpre.subset (by simp))).1 rfl)
  have hlines : (Piece.token .number n.chars).newlines = 0 :=
    List.count_eq_zero.mpr fun hmem => (hdigits _ hmem).2 rfl
  rw [scan, String.toList_ofList, hcut, ← numberValue_numeral h hnegative hexponent]
  simp [tokensFrom, diagnosticsFrom, hlines, Piece.token?, Piece.diagnostic?, Literal.ofLexeme]

/-- An exponent is seen by its letter. -/
theorem mem_chars_e_iff {n : Numeral} (h : n.Tidy) : 'e' ∈ n.chars ↔ n.exponent?.isSome = true := by
  have hmantissa : 'e' ∉ n.whole ++ Numeral.fractionChars n.fraction := fun hmem =>
    h.mantissa_ne hmem (by decide) (by decide) rfl
  have hsigned : 'e' ∈ n.chars ↔ 'e' ∈ Numeral.exponentChars n.exponent? := by
    unfold Numeral.chars Layout.signed
    split <;> simp only [List.mem_cons, List.mem_append (s := n.whole ++ _), hmantissa, false_or]
    simp
  rw [hsigned]
  cases n.exponent? <;> simp [Numeral.exponentChars]

/-- A numeral without sign and exponent reads back as the number that it was printed for. -/
theorem numeral_reads_back {x : Float} {n : Numeral} (h : (FloatShape.of x).numeral? = some n) (hx : 0 ≤ x)
    (hexponent : n.exponent? = none) :
    n.negative = false
      ∧ (Float.ofScientific (decimalValue (n.whole ++ n.fraction)) true n.fraction.length == x) = true := by
  -- the infinite number has no numeral, a zero is read as a zero, and the others are read as the double that they
  -- round to
  rcases (zero_le_iff x).mp hx with hshape | ⟨negative, hshape⟩ | ⟨m, q, narrow, hshape⟩
  · rw [hshape] at h
    cases h
  · have hnan : x.isNaN = false := not_isNaN (by rw [hshape]; exact nofun)
    rw [hshape] at h
    cases h
    refine ⟨rfl, (beq_iff rfl hnan).mpr ?_⟩
    rw [hshape]
    rfl
  · have hnan : x.isNaN = false := not_isNaN (by rw [hshape]; exact nofun)
    have hd := isDouble_of_shape hshape
    rw [hshape] at h
    have hn := Option.some.inj h
    have hnegative : n.negative = false := by
      rw [← hn]
      exact Numeral.ofDigits_negative
    have hvalue : ((decimalValue (n.whole ++ n.fraction) : Nat) : ℚ) / 10 ^ n.fraction.length
        = (Decimal.shortest m q narrow).value := by
      have heq := congrArg Numeral.value hn
      rw [Decimal.numeral_value, Numeral.value, hnegative, hexponent, Option.getD_none, zero_sub, zpow_neg,
        zpow_natCast] at heq
      rw [if_neg Bool.false_ne_true, one_mul, one_mul] at heq
      rw [div_eq_mul_inv, heq]
    have hrounds := (shortest_spec hd).1
    rw [← hvalue] at hrounds
    have hpos : 0 < decimalValue (n.whole ++ n.fraction) := by
      by_contra hzero
      have := hrounds.pos hd.pos
      rw [Nat.eq_zero_of_not_pos hzero] at this
      norm_num at this
    have hread := ofScientific_shape hd hpos hrounds
    exact ⟨hnegative, (beq_iff (not_isNaN (by rw [hread]; exact nofun)) hnan).mpr (by rw [hread, hshape])⟩

/-! ## What is printed is exact

Everything is now put together: numbers are told apart by their texts, and those that the language can write are read
back. -/

theorem printed_text (x : Float) : (Layout.printed.text x).toList = Layout.printed.chars (.of x) :=
  String.toList_ofList

/-- A finite number is zero or has digits. -/
theorem shape_of_finite {x : Float} (hfinite : x.isFinite = true) (hzero : (x == 0) = false) :
    ∃ negative m q narrow, FloatShape.of x = .finite negative m q narrow := by
  rcases (isFinite_iff x).mp hfinite with ⟨negative, hshape⟩ | hshape
  · have heq : (x == 0) = true := by
      rw [beq_iff (not_isNaN (by rw [hshape]; exact nofun)) rfl, hshape]
      rfl
    rw [heq] at hzero
    cases hzero
  · exact hshape

/-- Numbers are printed alike exactly if they are equal. -/
theorem printed_eq_iff {x y : Float} (hx : x.isNaN = false) (hy : y.isNaN = false) :
    Layout.printed.text x = Layout.printed.text y ↔ (x == y) = true := by
  rw [beq_iff hx hy]
  constructor
  · intro h
    have hchars := congrArg String.toList h
    rw [printed_text, printed_text] at hchars
    exact printed_injective hx hy hchars
  · intro h
    rw [Layout.text, Layout.text, ← printed_unsigned (.of x), h, printed_unsigned]

/-- What is printed without sign and exponent is scanned to the number. -/
theorem printed_scans_back {x : Float} (hx : 0 ≤ x) (he : 'e' ∉ (Layout.printed.text x).toList)
    (hinfinity : Layout.printed.text x ≠ "Infinity") :
    ∃ y : Float, scan (Layout.printed.text x) = ⟨[⟨.number, Layout.printed.text x, .number y, 1⟩, .eof 1], []⟩
      ∧ (y == x) = true := by
  have hnan : x.isNaN = false := not_isNaN fun h => by
    rcases (zero_le_iff x).mp hx with hshape | ⟨_, hshape⟩ | ⟨_, _, _, hshape⟩ <;> rw [hshape] at h <;> cases h
  -- either there is a numeral, or the text is the word for infinity that has been excluded
  rcases numeral?_isSome hnan with ⟨n, hn⟩ | ⟨negative, hshape⟩
  · have htidy := numeral_tidy hn
    have htext : Layout.printed.text x = String.ofList n.chars := by
      rw [Layout.text, printed_chars hn]
    rw [htext, String.toList_ofList, mem_chars_e_iff htidy] at he
    have hexponent : n.exponent? = none := by simpa using he
    obtain ⟨hnegative, hequal⟩ := numeral_reads_back hn hx hexponent
    exact ⟨_, by rw [htext]; exact scan_numeral htidy hnegative hexponent, hequal⟩
  · have hnegative : negative = false := by
      rcases (zero_le_iff x).mp hx with h | ⟨_, h⟩ | ⟨_, _, _, h⟩ <;> rw [hshape] at h <;> cases h
      rfl
    refine absurd ?_ hinfinity
    rw [Layout.text, hshape, hnegative]
    rfl

/-- **Printed numbers are exact.** The digits of a finite number that is not zero are those of a shortest decimal that
rounds to it; what is printed is a numeral without a superfluous zero, denotes exactly that decimal with the sign of the
number, and has an exponent only from `10 ^ 21` on and below `10 ^ -6`. So two numbers have one text iff they are equal,
and a text without sign and exponent is scanned to one token whose literal is the number. -/
theorem printed_numbers_exact (x : Float) :
    (x.isFinite = true → (x == 0) = false →
      ∃ negative m q narrow, FloatShape.of x = .finite negative m q narrow ∧ (negative = true ↔ x < 0) ∧
        let d := Decimal.shortest m q narrow
        let v : ℚ := decimalValue d.digits / 10 ^ d.digits.length * 10 ^ d.point
        let text := (Layout.printed.text x).toList
        (d.digits.head? ≠ some '0' ∧ d.digits.getLast? ≠ some '0' ∧ RoundsTo m q narrow v
          ∧ ∀ c : Decimal, RoundsTo m q narrow c.value → d.digits.length ≤ c.digits.length)
        ∧ (Numeral.read text).Tidy ∧ (Numeral.read text).chars = text
        ∧ (Numeral.read text).value = (if negative then -1 else 1) * v
        ∧ ('e' ∈ text ↔ 10 ^ 21 ≤ v ∨ v < 10 ^ (-6 : Int)))
    ∧ (∀ y : Float, x.isNaN = false → y.isNaN = false →
        (Layout.printed.text x = Layout.printed.text y ↔ (Value.number x).equals (.number y) = true))
    ∧ (0 ≤ x → 'e' ∉ (Layout.printed.text x).toList → Layout.printed.text x ≠ "Infinity" →
        ∃ y : Float, scan (Layout.printed.text x) = ⟨[⟨.number, Layout.printed.text x, .number y, 1⟩, .eof 1], []⟩
          ∧ (y == x) = true) := by
  refine ⟨fun hfinite hzero => ?_, fun y hx hy => printed_eq_iff hx hy, fun hx he hinfinity =>
    printed_scans_back hx he hinfinity⟩
  obtain ⟨negative, m, q, narrow, hshape⟩ := shape_of_finite hfinite hzero
  have hd := isDouble_of_shape hshape
  have hpos := shortest_pos hd
  have hchars : (Layout.printed.text x).toList = ((Decimal.shortest m q narrow).numeral negative).chars := by
    rw [printed_text]
    exact printed_chars (by rw [hshape]; rfl)
  have htidy := shortest_numeral_tidy hd negative
  refine ⟨negative, m, q, narrow, hshape, ?_, ?_⟩
  · rw [lt_zero_iff, hshape]
    cases negative <;> simp
  -- the text is read as the numeral that it was written for
  dsimp only
  rw [hchars, Numeral.read_chars htidy, ← Decimal.value_eq_point]
  refine ⟨⟨head_toDigits_ne hpos, getLast_toDigits_ne (shortest_mod_ten hd), (shortest_spec hd).1,
    shortest_digits_le hd⟩, htidy, rfl, Decimal.numeral_value negative _, ?_⟩
  rw [mem_chars_e_iff htidy, Decimal.numeral_exponent? negative _ hpos]

end LoxLang
