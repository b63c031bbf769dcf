import LoxLang.Decimal.Layout
import LoxLang.Token.Scan
import Mathlib

/-!
# Decimal numerals

What a decimal numeral denotes, and the numeral that a layout writes.

* **`Numeral`** — the parts of a numeral: sign, digits before the point, digits behind it, exponent.
* **`Numeral.read_chars`** — the parts are read back from the text.
* **`Numeral.ofDigits`** — the numeral of digits and a place of the point; it is tidy (`Numeral.ofDigits_tidy`), denotes
  exactly what they denote (`Numeral.ofDigits_value`) and is what is printed (`Numeral.ofDigits_chars`).
-/

namespace LoxLang

/-! ## Values of digits

A list of digits denotes a natural number, the last digit being the ones. -/

/-- Digits in front count by a power of ten more for each digit behind them. -/
theorem decimalValue_append (ds es : List Char) :
    decimalValue (ds ++ es) = decimalValue ds * 10 ^ es.length + decimalValue es := by
  change Nat.ofDigitChars 10 (ds ++ es) 0 = Nat.ofDigitChars 10 ds 0 * _ + Nat.ofDigitChars 10 es 0
  rw [Nat.ofDigitChars_append, Nat.ofDigitChars_eq_ofDigitChars_zero, Nat.mul_comm]

/-- Zeros denote zero. -/
theorem decimalValue_zeros (n : Nat) : decimalValue (List.replicate n '0') = 0 := by
  change Nat.ofDigitChars 10 (List.replicate n '0') 0 = 0
  rw [Nat.ofDigitChars_replicate_zero, Nat.mul_zero]

/-- The digits of a number denote it. -/
theorem decimalValue_toDigits (n : Nat) : decimalValue (Nat.toDigits 10 n) = n :=
  Nat.ofDigitChars_ten_toDigits

theorem isDigit_of_mem_toDigits {n : Nat} {c : Char} (h : c ∈ Nat.toDigits 10 n) : c.isDigit = true :=
  Nat.isDigit_of_mem_toDigits (by norm_num) (by norm_num) h

/-- The first digit of a positive number is not a zero. -/
theorem head_toDigits_ne {n : Nat} (hn : 0 < n) : (Nat.toDigits 10 n).head? ≠ some '0' := by
  induction n using Nat.strong_induction_on with
  | h n ih =>
    rw [Nat.toDigits_eq_if (by norm_num)]
    split
    · simp [hn.ne']
    · rw [List.head?_append_of_ne_nil _ Nat.toDigits_ne_nil]
      exact ih (n / 10) (by omega) (by omega)

/-- The last digit of a number that ten does not divide is not a zero. -/
theorem getLast_toDigits_ne {n : Nat} (hn : n % 10 ≠ 0) : (Nat.toDigits 10 n).getLast? ≠ some '0' := by
  rw [Nat.toDigits_eq_if (by norm_num)]
  split
  · next hlt => simpa [Nat.mod_eq_of_lt hlt] using hn
  · simpa using hn

/-! ## Numerals

A numeral is tidy if its parts can be told apart in its text and if it has no digits that say nothing. -/

/-- A decimal numeral: a sign, the digits before the point and those behind it, and an exponent of ten. -/
structure Numeral where
  negative : Bool
  whole : List Char
  fraction : List Char
  exponent? : Option Int
deriving DecidableEq

namespace Numeral

/-- The number that a numeral denotes. -/
def value (n : Numeral) : ℚ :=
  (if n.negative then -1 else 1) * decimalValue (n.whole ++ n.fraction)
    * 10 ^ (n.exponent?.getD 0 - n.fraction.length)

/-- A numeral without a superfluous zero: there are digits before the point, the first of several is not a zero, and the
last one behind the point is not a zero. -/
structure Tidy (n : Numeral) : Prop where
  whole_ne_nil : n.whole ≠ []
  whole_digits : ∀ c ∈ n.whole, c.isDigit = true
  fraction_digits : ∀ c ∈ n.fraction, c.isDigit = true
  no_leading_zero : n.whole.head? = some '0' → n.whole = ['0']
  no_trailing_zero : n.fraction.getLast? ≠ some '0'

/-- The text of a point and the digits behind it; no point without digits. -/
def fractionChars (digits : List Char) : List Char :=
  if digits = [] then [] else '.' :: digits

/-- The text of an exponent, with its sign. -/
def exponentChars : Option Int → List Char
  | none => []
  | some e => 'e' :: (if e < 0 then '-' else '+') :: Nat.toDigits 10 e.natAbs

/-- The text of a numeral. -/
def chars (n : Numeral) : List Char :=
  Layout.signed n.negative (n.whole ++ fractionChars n.fraction ++ exponentChars n.exponent?)

/-! ## Reading

From left to right: sign, digits, point, digits, exponent. Each part ends at the first character that cannot belong to
it. -/

/-- The exponent that a text after the mantissa denotes. -/
def readExponent? : List Char → Option Int
  | 'e' :: '-' :: digits => some (-decimalValue digits)
  | 'e' :: '+' :: digits => some (decimalValue digits)
  | _ => none

/-- Whether there is a minus sign, and the text behind it. -/
def readSign : List Char → Bool × List Char
  | '-' :: text => (true, text)
  | text => (false, text)

/-- The parts of a text that is read as a numeral. -/
def read (text : List Char) : Numeral :=
  let (negative, unsigned) := readSign text
  let mantissa := unsigned.takeWhile (· != 'e')
  { negative
    whole := mantissa.takeWhile (· != '.')
    fraction := (mantissa.dropWhile (· != '.')).tail
    exponent? := readExponent? (unsigned.dropWhile (· != 'e')) }

/-- A minus in front is a sign. -/
theorem readSign_signed (negative : Bool) {text : List Char} (h : text.head? ≠ some '-') :
    readSign (Layout.signed negative text) = (negative, text) := by
  cases negative with
  | true => rfl
  | false =>
    change readSign text = _
    unfold readSign
    split
    · exact absurd rfl h
    · rfl

/-- An exponent is read back with its sign. -/
theorem readExponent?_chars (e? : Option Int) : readExponent? (exponentChars e?) = e? := by
  cases e? with
  | none => rfl
  | some e =>
    by_cases hneg : e < 0
    · rw [exponentChars, if_pos hneg, readExponent?, decimalValue_toDigits]
      congr 1
      omega
    · rw [exponentChars, if_neg hneg, readExponent?, decimalValue_toDigits]
      congr 1
      omega

/-- The characters up to the first one that is not passed. -/
theorem takeWhile_dropWhile_append {p : Char → Bool} {front back : List Char} (hfront : ∀ c ∈ front, p c = true)
    (hback : ∀ c, back.head? = some c → p c = false) :
    (front ++ back).takeWhile p = front ∧ (front ++ back).dropWhile p = back := by
  rw [List.takeWhile_append_of_pos hfront, List.dropWhile_append_of_pos hfront]
  cases back with
  | nil => simp
  | cons c back =>
    have := hback c rfl
    simp [this]

theorem isDigit_ne {c d : Char} (hc : c.isDigit = true) (hd : d.isDigit = false) : c ≠ d := by
  rintro rfl
  rw [hc] at hd
  cases hd

/-- No character of another sort is among the digits. -/
theorem Tidy.mantissa_ne {n : Numeral} (h : n.Tidy) {c d : Char} (hc : c ∈ n.whole ++ fractionChars n.fraction)
    (hd : d.isDigit = false) (hdot : d ≠ '.') : c ≠ d := by
  rcases List.mem_append.mp hc with hc | hc
  · exact isDigit_ne (h.whole_digits c hc) hd
  · unfold fractionChars at hc
    split at hc
    · cases hc
    · rcases List.mem_cons.mp hc with rfl | hc
      · exact hdot.symm
      · exact isDigit_ne (h.fraction_digits c hc) hd

/-- **Reading.** The parts of a tidy numeral are read back from its text. -/
theorem read_chars {n : Numeral} (h : n.Tidy) : read n.chars = n := by
  obtain ⟨negative, whole, fraction, exponent?⟩ := n
  have hhead : (whole ++ fractionChars fraction ++ exponentChars exponent?).head? ≠ some '-' := by
    obtain ⟨c, rest, rfl⟩ := List.exists_cons_of_ne_nil h.whole_ne_nil
    simpa using isDigit_ne (h.whole_digits c (by simp)) (by decide : '-'.isDigit = false)
  -- the letter of the exponent stands nowhere in front of it
  have hmantissa : ∀ c ∈ whole ++ fractionChars fraction, (c != 'e') = true := fun c hc =>
    bne_iff_ne.mpr (h.mantissa_ne hc (by decide) (by decide))
  have hexponent : ∀ c, (exponentChars exponent?).head? = some c → (c != 'e') = false := by
    cases exponent? <;> simp [exponentChars]
  obtain ⟨htake, hdrop⟩ := takeWhile_dropWhile_append hmantissa hexponent
  -- nor does the point among the digits before it
  have hwhole : ∀ c ∈ whole, (c != '.') = true := fun c hc =>
    bne_iff_ne.mpr (isDigit_ne (h.whole_digits c hc) (by decide))
  have hpoint : ∀ c, (fractionChars fraction).head? = some c → (c != '.') = false := by
    unfold fractionChars
    split <;> simp
  obtain ⟨htake', hdrop'⟩ := takeWhile_dropWhile_append hwhole hpoint
  have hfraction : (fractionChars fraction).tail = fraction := by
    unfold fractionChars
    split
    case isTrue hnil => rw [hnil, List.tail_nil]
    case isFalse => rfl
  simp only [read, chars, readSign_signed negative hhead, htake, hdrop, htake', hdrop', hfraction, readExponent?_chars]

/-! ## Numerals of digits

The layout puts the point among the digits, behind or before them with zeros between, or it writes an exponent. The
value is the same in all cases. -/

/-- The numeral of `0.d₁…dₖ · 10 ^ point`, with an exponent only where one is printed. -/
def ofDigits (negative : Bool) (digits : List Char) (point : Int) : Numeral :=
  if Layout.printed.lowPoint < point ∧ point ≤ Layout.printed.highPoint then
    if point ≤ 0 then
      ⟨negative, ['0'], List.replicate (-point).toNat '0' ++ digits, none⟩
    else if point < digits.length then
      ⟨negative, digits.take point.toNat, digits.drop point.toNat, none⟩
    else
      ⟨negative, digits ++ List.replicate (point.toNat - digits.length) '0', [], none⟩
  else
    ⟨negative, digits.take 1, digits.drop 1, some (point - 1)⟩

variable {negative : Bool} {digits : List Char} {point : Int}

theorem ofDigits_negative : (ofDigits negative digits point).negative = negative := by
  unfold ofDigits
  split_ifs <;> rfl

theorem ofDigits_exponent? :
    (ofDigits negative digits point).exponent?.isSome = true ↔ point ≤ -6 ∨ 21 < point := by
  change _ ↔ point ≤ Layout.printed.lowPoint ∨ Layout.printed.highPoint < point
  unfold ofDigits
  split_ifs <;> simp only [Option.isSome_none, Option.isSome_some] <;> grind

/-- The numeral denotes what the digits and the place of the point denote. -/
theorem ofDigits_value (hne : digits ≠ []) :
    (ofDigits negative digits point).value
      = (if negative then -1 else 1) * (decimalValue digits * 10 ^ (point - digits.length)) := by
  have hpos := List.length_pos_iff.mpr hne
  unfold ofDigits
  split
  case isTrue =>
    split
    case isTrue hsmall =>
      -- zeros behind the point
      unfold value
      dsimp only
      rw [decimalValue_append, decimalValue_append, decimalValue_zeros, mul_assoc]
      congr 2
      · norm_num [decimalValue]
      · rw [List.length_append, List.length_replicate, Option.getD_none]
        congr 1
        push_cast
        omega
    case isFalse =>
      split
      case isTrue hinside =>
        unfold value
        dsimp only
        rw [List.take_append_drop, List.length_drop, Option.getD_none, mul_assoc]
        congr 3
        omega
      case isFalse =>
        -- zeros in front of the point
        have hle : digits.length ≤ point.toNat := by omega
        unfold value
        dsimp only
        rw [List.append_nil, decimalValue_append, decimalValue_zeros, List.length_replicate, Option.getD_none,
          List.length_nil, Nat.cast_zero, sub_zero, zpow_zero, mul_one, add_zero]
        push_cast
        rw [← zpow_natCast]
        congr 3
        omega
  case isFalse =>
    unfold value
    dsimp only
    rw [List.take_append_drop, List.length_drop, Option.getD_some, mul_assoc]
    congr 3
    omega

section

variable (hdigits : ∀ c ∈ digits, c.isDigit = true) (hhead : digits.head? ≠ some '0')
  (hlast : digits.getLast? ≠ some '0')

include hdigits hhead hlast

/-- Digits with a point between two of them, or behind the last. -/
theorem tidy_split (hne : digits ≠ []) {n : Nat} (hn : 0 < n) (exponent? : Option Int) :
    (Numeral.mk negative (digits.take n) (digits.drop n) exponent?).Tidy where
  whole_ne_nil h := by
    rcases List.take_eq_nil_iff.mp h with rfl | h
    · exact absurd hn (lt_irrefl 0)
    · exact hne h
  whole_digits c hc := hdigits c (List.mem_of_mem_take hc)
  fraction_digits c hc := hdigits c (List.mem_of_mem_drop hc)
  no_leading_zero h := by
    rw [List.head?_take, if_neg hn.ne'] at h
    exact absurd h hhead
  no_trailing_zero := by
    dsimp only
    rw [List.getLast?_drop]
    split
    · exact (Option.some_ne_none _).symm
    · exact hlast

/-- The numeral has no superfluous zero if the digits have none at either end. -/
theorem ofDigits_tidy (hne : digits ≠ []) : (ofDigits negative digits point).Tidy := by
  have hzeros : ∀ n, ∀ c ∈ List.replicate n '0', c.isDigit = true := by
    intro n c hc
    rw [(List.mem_replicate.mp hc).2]
    rfl
  unfold ofDigits
  split_ifs with hprinted hsmall hinside
  · -- zeros behind the point
    constructor
    case whole_ne_nil => exact List.cons_ne_nil _ _
    case whole_digits =>
      intro c hc
      rw [List.mem_singleton.mp hc]
      rfl
    case fraction_digits =>
      exact fun c hc => (List.mem_append.mp hc).elim (hzeros _ c) (hdigits c)
    case no_leading_zero => exact fun _ => rfl
    case no_trailing_zero =>
      dsimp only
      rwa [List.getLast?_append_of_ne_nil _ hne]
  · exact tidy_split hdigits hhead hlast hne (by omega) none
  · -- zeros in front of the point
    constructor
    case whole_ne_nil => exact List.append_ne_nil_of_left_ne_nil hne _
    case whole_digits =>
      exact fun c hc => (List.mem_append.mp hc).elim (hdigits c) (hzeros _ c)
    case fraction_digits => exact fun c hc => absurd hc List.not_mem_nil
    case no_leading_zero =>
      intro h
      dsimp only at h
      rw [List.head?_append_of_ne_nil _ hne] at h
      exact absurd h hhead
    case no_trailing_zero => exact (Option.some_ne_none _).symm
  · exact tidy_split hdigits hhead hlast hne one_pos _

end

/-- The text of the numeral is what is printed. -/
theorem ofDigits_chars (d : Decimal) :
    (ofDigits negative d.digits d.point).chars = Layout.signed negative (Layout.printed.decimal d) := by
  have hne : d.digits ≠ [] := Nat.toDigits_ne_nil
  have hdrop : ∀ n, n < d.digits.length → fractionChars (d.digits.drop n) = '.' :: d.digits.drop n := by
    intro n hn
    exact if_neg (List.ne_nil_of_length_pos (by rw [List.length_drop]; omega))
  unfold chars Layout.decimal
  rw [ofDigits_negative]
  congr 1
  -- positional or with an exponent, as both definitions choose by the same condition
  unfold ofDigits
  split
  case isTrue =>
    unfold Layout.positional
    dsimp only
    split
    case isTrue =>
      rw [fractionChars, if_neg (List.append_ne_nil_of_right_ne_nil _ hne), exponentChars, List.append_nil]
      rfl
    case isFalse =>
      split
      case isTrue hinside =>
        rw [hdrop _ (by omega), exponentChars, List.append_nil]
      case isFalse =>
        rw [fractionChars, if_pos rfl, exponentChars, List.append_nil, List.append_nil]
        exact (List.append_nil _).symm
  case isFalse =>
    have hexponent : ∀ e : Int, exponentChars (some e)
        = 'e' :: (if e < 0 then '-' else '+') :: Layout.pad 1 (Nat.toDigits 10 e.natAbs) := by
      intro e
      have : 1 - (Nat.toDigits 10 e.natAbs).length = 0 := by
        have : 0 < (Nat.toDigits 10 e.natAbs).length := Nat.length_toDigits_pos
        omega
      rw [exponentChars, Layout.pad, this]
      rfl
    unfold Layout.scientific
    dsimp only
    rw [hexponent]
    match hdigits : d.digits with
    | [] => exact absurd hdigits hne
    | [c] => rfl
    | c :: c' :: rest => rfl

end Numeral

end LoxLang
