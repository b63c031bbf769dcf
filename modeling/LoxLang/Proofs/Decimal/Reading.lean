import LoxLang.Proofs.Decimal.Doubles

/-!
# Reading decimals

A decimal that is read is rounded to the double whose interval it lies in.

* **`ofScientific_shape`** — `c · 10 ^ -k` is read as the double that it rounds to.
* **`IsDouble.unique`** — it rounds to no other double.
* **`ofScientific_nonnegative`** — nothing is read as a negative number.

There are two ways to read. A coefficient that is a double itself is divided by one of the powers of ten that are doubles;
every other decimal is divided, or multiplied, with its exact value.
-/

namespace LoxLang

open Float.Model Float.Model.UnpackedFloat

/-! ## Integers that are doubles

Natural numbers below the 53rd power of two, and the powers of ten up to the 22nd, are doubles. -/

/-- A positive integer of at most 53 bits with its normal form. -/
theorem isDouble_of_lt {n : Nat} (hpos : 0 < n) (hlt : n < 2 ^ 53) :
    IsDouble (n * 2 ^ (52 - n.log2)) (n.log2 - 52) (n * 2 ^ (52 - n.log2) == 2 ^ 52)
      ∧ ((n * 2 ^ (52 - n.log2) : Nat) : ℚ) * 2 ^ ((n.log2 : Int) - 52) = n := by
  have hlog : n.log2 < 53 := (Nat.log2_lt hpos.ne').mpr hlt
  have hlow : 2 ^ 52 ≤ n * 2 ^ (52 - n.log2) := by
    calc 2 ^ 52 = 2 ^ n.log2 * 2 ^ (52 - n.log2) := by rw [← Nat.pow_add]; congr 1; omega
      _ ≤ n * 2 ^ (52 - n.log2) := Nat.mul_le_mul_right _ (Nat.log2_self_le hpos.ne')
  have hhigh : n * 2 ^ (52 - n.log2) < 2 ^ 53 := by
    calc n * 2 ^ (52 - n.log2) < 2 ^ (n.log2 + 1) * 2 ^ (52 - n.log2) :=
          Nat.mul_lt_mul_of_pos_right Nat.lt_log2_self (Nat.two_pow_pos _)
      _ = 2 ^ 53 := by rw [← Nat.pow_add]; congr 1; omega
  refine ⟨⟨by omega, hhigh, by omega, by omega, .inl hlow, ?_⟩, ?_⟩
  · rw [beq_iff_eq]
    omega
  · rw [show (n.log2 : Int) - 52 = -((52 - n.log2 : Nat) : Int) by omega, zpow_neg, zpow_natCast]
    push_cast
    exact mul_inv_cancel_right₀ (pow_ne_zero _ two_ne_zero) _

/-- The number is shifted until it has 53 bits, and nothing is rounded. -/
theorem toFloat_unpack {n : Nat} (hpos : 0 < n) (hlt : n < 2 ^ 53) :
    ∃ m q, ∃ hm : 0 < m, n.toUInt64.toFloat.toModel.unpack = .finite .positive m q hm ∧ (m : ℚ) * 2 ^ q = n := by
  obtain ⟨hd, hvalue⟩ := isDouble_of_lt hpos hlt
  refine ⟨_, _, hd.pos, ?_, hvalue⟩
  have hn : n.toUInt64.toNat = n := Nat.mod_eq_of_lt (by omega)
  change (Float.Model.pack (UnpackedFloat.normalize Format.binary64 (n.toUInt64.toNat : Int) 0 .positive)).unpack = _
  have hnormal : UnpackedFloat.normalize Format.binary64 n 0 .positive = UnpackedFloat.round Format.binary64 .positive n 0 := by
    unfold UnpackedFloat.normalize
    rw [compare_gt_iff_gt.mpr (by exact_mod_cast hpos)]
    rfl
  have htarget : Format.binary64.targetExponent (totalExponent n 0) = n.log2 - 52 := by
    rw [targetExponent_eq]
    omega
  have hlog : n.log2 < 53 := (Nat.log2_lt hpos.ne').mpr hlt
  have hdecrease : decreaseExponent n 0 (n.log2 - 52) = (n * 2 ^ (52 - n.log2), (n.log2 : Int) - 52) := by
    have hshift : (0 - ((n.log2 : Int) - 52)).toNat = 52 - n.log2 := by omega
    simp only [decreaseExponent, hshift, Nat.shiftLeft_eq, Prod.mk.injEq, true_and]
    omega
  -- no bit is lost by the shift, so rounding gives the number itself
  have hround : UnpackedFloat.round Format.binary64 .positive n 0 = .finite .positive _ (n.log2 - 52) hd.pos := by
    simp only [UnpackedFloat.round, htarget, hdecrease]
    refine round_eq hd (.self ..) ?_ ?_ _
    · simp only [Truncates, ExtendedMantissa.ofMantissaAndAccuracy]
      exact mul_div_cancel_right₀ _ (two_zpow_pos _).ne'
    · rw [targetExponent_eq]
      have := (Nat.le_log2 (by have := hd.pos; omega)).mpr (hd.normal.resolve_right (by omega))
      omega
  rw [hn, hnormal, hround, unpack_pack hd]

/-- Whether an unpacked double is a power of ten. -/
def isPowerOfTen (u : UnpackedFloat) (k : Nat) : Bool :=
  match u with
  | .finite .positive m q _ => -52 ≤ q && m * 2 ^ (q + 52).toNat == 10 ^ k * 2 ^ 52
  | _ => false

theorem powersOfTen :
    ∀ k : Fin 23, isPowerOfTen (getElem Float.exactlyRepresentablePowersOfTen k.val k.isLt).toModel.unpack k = true := by
  decide +kernel

/-- What the table holds for `10 ^ k` has just this value. -/
theorem powerOfTen_unpack {k : Nat} (hk : k < 23) :
    ∃ m q, ∃ hm : 0 < m, (getElem Float.exactlyRepresentablePowersOfTen k hk).toModel.unpack = .finite .positive m q hm
      ∧ (m : ℚ) * 2 ^ q = 10 ^ k := by
  have hpower := powersOfTen ⟨k, hk⟩
  dsimp only at hpower
  generalize (getElem Float.exactlyRepresentablePowersOfTen k hk).toModel.unpack = u at hpower ⊢
  rcases u with _ | _ | _ | ⟨_ | _, m, q, hm⟩
  case finite.positive =>
    refine ⟨m, q, hm, rfl, ?_⟩
    simp only [isPowerOfTen, Bool.and_eq_true, decide_eq_true_eq, beq_iff_eq] at hpower
    obtain ⟨hq, hpower⟩ := hpower
    have hcast : (m : ℚ) * 2 ^ (q + 52).toNat = 10 ^ k * 2 ^ 52 := by exact_mod_cast hpower
    rw [← zpow_natCast, Int.toNat_of_nonneg (by omega), zpow_add₀ two_ne_zero, ← mul_assoc] at hcast
    exact mul_right_cancel₀ (zpow_ne_zero 52 two_ne_zero) hcast
  all_goals exact Bool.noConfusion hpower

/-! ## Decimals

The interval in which the decimal lies belongs to one double, and rounding finds it whichever way is taken. -/

section

variable {m : Nat} {q : Int} {narrow : Bool}

/-- The bits of the double that a decimal rounds to, with its shape. -/
theorem shape_of_unpacked (hd : IsDouble m q narrow) :
    FloatShape.of (.ofModel (.pack (.finite .positive m q hd.pos))) = .finite false m q narrow := by
  rw [FloatShape.of_eq, unpack_pack hd, FloatShape.ofUnpacked, isNegative]
  congr 1
  rw [Bool.eq_iff_iff, hd.narrow_iff]
  simp

/-- A decimal that rounds to a double is larger than half of the least one. -/
theorem RoundsTo.least_lt (hd : IsDouble m q narrow) {v : ℚ} (hv : RoundsTo m q narrow v) : (2 : ℚ) ^ (-1075 : Int) ≤ v := by
  refine le_trans ?_ hv.bounds.1
  have hm : (1 : ℚ) ≤ m := by exact_mod_cast hd.pos
  have hhalf : (2 : ℚ) ^ (-1075 : Int) = 1 / 2 * 2 ^ (-1074 : Int) := by
    rw [show (-1075 : Int) = -1 + -1074 by norm_num, zpow_add₀ two_ne_zero]
    norm_num only
  rw [hhalf]
  refine mul_le_mul ?_ (zpow_le_zpow_right₀ one_le_two hd.least) (two_zpow_pos _).le ?_
  all_goals split <;> linarith

/-- The exact way to read: a decimal that rounds to a double is neither too large nor too small for it. -/
theorem ofScientific_unpacked (hd : IsDouble m q narrow) {c : Nat} (hc : 0 < c) {k : Nat}
    (hv : RoundsTo m q narrow (c / 10 ^ k)) :
    UnpackedFloat.ofScientific Format.binary64 c (-k) = .finite .positive m q hd.pos := by
  have hbits : (2 : Int) ^ Format.binary64.exponentBits = 2048 := rfl
  have hlarge : ¬(-(k : Int) > 2 ^ Format.binary64.exponentBits) := by omega
  have hsmall : ¬(-(k : Int) < -((2 ^ Format.binary64.exponentBits : Int) + c.log2)) := by
    intro hk
    -- the decimal would be smaller than all that round to a double
    have hnum : (c : ℚ) < 2 ^ ((c.log2 : Int) + 1) := by
      exact_mod_cast Nat.lt_log2_self
    have hden : (2 : ℚ) ^ (k : Int) ≤ 10 ^ k := by
      rw [zpow_natCast]
      exact pow_le_pow_left₀ two_pos.le (by norm_num) k
    have hlt : (c : ℚ) / 10 ^ k < 2 ^ (-1075 : Int) :=
      calc (c : ℚ) / 10 ^ k < 2 ^ ((c.log2 : Int) + 1) / 2 ^ (k : Int) :=
            div_lt_div₀ hnum hden (two_zpow_pos _).le (two_zpow_pos _)
        _ = 2 ^ ((c.log2 : Int) + 1 - k) := (zpow_sub₀ two_ne_zero _ _).symm
        _ ≤ 2 ^ (-1075 : Int) := zpow_le_zpow_right₀ one_le_two (by omega)
    exact absurd (hv.least_lt hd) (not_le.mpr hlt)
  rw [UnpackedFloat.ofScientific, dif_neg hc.ne', if_neg hlarge, if_neg hsmall]
  split
  case isTrue hzero =>
    have hk : k = 0 := by omega
    subst hk
    refine mul_eq hd _ _ ?_ ?_ .positive .positive
    · have hshift : (2 : ℚ) ^ Format.binary64.mantissaBits * 2 ^ (-Format.binary64.mantissaBits : Int) = 1 := by
        rw [← zpow_natCast, ← zpow_add₀ two_ne_zero, add_neg_cancel, zpow_zero]
      rw [Nat.shiftLeft_eq]
      push_cast
      rw [mul_assoc (c : ℚ), hshift]
      simpa using hv
    · rw [Nat.shiftLeft_eq]
      have hbits : Format.binary64.mantissaBits = 53 := rfl
      simp only [hbits, Nat.cast_zero, neg_zero, Int.toNat_zero, pow_zero, mul_one]
      omega
  case isFalse =>
    refine div_eq hd _ _ ?_ .positive .positive
    rw [neg_neg, Int.toNat_natCast]
    push_cast
    simpa using hv

/-- **Reading.** A decimal is read as the double that it rounds to. -/
theorem ofScientific_shape (hd : IsDouble m q narrow) {c : Nat} (hc : 0 < c) {k : Nat}
    (hv : RoundsTo m q narrow (c / 10 ^ k)) :
    FloatShape.of (Float.ofScientific c true k) = .finite false m q narrow := by
  unfold Float.ofScientific
  split
  case isTrue hfast =>
    obtain ⟨m₁, q₁, h₁, hunpack₁, hvalue₁⟩ := toFloat_unpack hc hfast.1
    obtain ⟨m₂, q₂, h₂, hunpack₂, hvalue₂⟩ := powerOfTen_unpack (k := k) (by omega)
    rw [← hvalue₁, ← hvalue₂] at hv
    have hdiv := div_eq hd h₁ h₂ hv .positive .positive
    rw [← hunpack₁, ← hunpack₂] at hdiv
    rw [← shape_of_unpacked hd]
    exact congrArg (fun u => FloatShape.of (.ofModel (.pack u))) hdiv
  case isFalse =>
    rw [← shape_of_unpacked hd, ← ofScientific_unpacked hd hc hv, ← Int.ofNat_eq_natCast, ← Int.negOfNat_eq]
    rfl

/-- A number rounds to one double at most. -/
theorem IsDouble.unique {m' : Nat} {q' : Int} {narrow' : Bool} (hd : IsDouble m q narrow) (hd' : IsDouble m' q' narrow')
    {v : ℚ} (hv : RoundsTo m q narrow v) (hv' : RoundsTo m' q' narrow' v) :
    m = m' ∧ q = q' ∧ narrow = narrow' := by
  have hpos : 0 < v := hv.pos hd.pos
  have hnum : 0 < v.num.toNat := by
    have := Rat.num_pos.mpr hpos
    omega
  have hquotient : v = (v.num.toNat : ℚ) * 2 ^ (0 : Int) / (v.den * 2 ^ (0 : Int)) := by
    have hcast : ((v.num.toNat : Nat) : ℚ) = v.num := by
      exact_mod_cast Int.toNat_of_nonneg (Rat.num_pos.mpr hpos).le
    rw [hcast, zpow_zero, mul_one, mul_one, Rat.num_div_den]
  rw [hquotient] at hv hv'
  have heq := (div_eq hd hnum v.den_pos hv .positive .positive).symm.trans
    (div_eq hd' hnum v.den_pos hv' .positive .positive)
  injection heq with _ hm hq
  refine ⟨hm, hq, ?_⟩
  rw [Bool.eq_iff_iff, hd.narrow_iff, hd'.narrow_iff, hm, hq]

end

/-! ## Signs

The scanner reads no sign, so what it reads is not negative; not even a zero is. -/

/-- Whether a shape has a minus sign. -/
def FloatShape.isNegative : FloatShape → Bool
  | .nan => false
  | .infinite negative | .zero negative | .finite negative _ _ _ => negative

/-- What is packed with a plus sign is unpacked with one. -/
theorem packComponents_positive (exponent : BitVec 11) (mantissa : BitVec 52) :
    (FloatShape.ofUnpacked (UnpackedFloat.unpack Format.binary64
      (packComponents Format.binary64 .positive exponent mantissa))).isNegative = false := by
  rw [UnpackedFloat.unpack]
  simp only [unpackMantissa_packComponents, unpackExponent_packComponents, unpackSign_packComponents]
  split
  · split <;> rfl
  · split
    · split <;> rfl
    · rfl

/-- Packing a number without sign sets no sign bit. -/
theorem pack_positive {u : UnpackedFloat} (h : (FloatShape.ofUnpacked u).isNegative = false) :
    (FloatShape.of (.ofModel (.pack u))).isNegative = false := by
  rw [FloatShape.of_eq]
  change (FloatShape.ofUnpacked (UnpackedFloat.unpack Format.binary64 (UnpackedFloat.pack Format.binary64 u))).isNegative
    = false
  rcases u with (_ | _) | _ | (_ | _) | ⟨_ | _, m, q, hm⟩
  case finite.positive =>
    rw [UnpackedFloat.pack]
    dsimp only
    split
    · exact packComponents_positive _ _
    · split <;> exact packComponents_positive _ _
  case notANumber => rfl
  case infinity.positive => exact packComponents_positive _ _
  case zero.positive => exact packComponents_positive _ _
  all_goals cases h

/-- Rounding keeps the sign. -/
theorem roundWithAccuracy_positive (mantissa : Nat) (exponent : Int) (accuracy : Accuracy) :
    (FloatShape.ofUnpacked (roundWithAccuracy Format.binary64 .positive mantissa exponent accuracy)).isNegative
      = false := by
  unfold roundWithAccuracy
  dsimp only
  split <;> rfl

/-- No decimal is read as a negative number. -/
theorem ofScientific_nonnegative (c k : Nat) : (FloatShape.of (Float.ofScientific c true k)).isNegative = false := by
  unfold Float.ofScientific
  -- read by a division of two doubles, or by rounding the exact value
  split
  case isTrue hfast =>
    obtain ⟨m₂, q₂, h₂, hunpack₂, -⟩ := powerOfTen_unpack (k := k) (by omega)
    have hdiv : (FloatShape.ofUnpacked (UnpackedFloat.div Format.binary64 c.toUInt64.toFloat.toModel.unpack
        (.finite .positive m₂ q₂ h₂))).isNegative = false := by
      rcases Nat.eq_zero_or_pos c with rfl | hc
      · rfl
      · obtain ⟨m₁, q₁, h₁, hunpack₁, -⟩ := toFloat_unpack hc hfast.1
        rw [hunpack₁]
        exact roundWithAccuracy_positive _ _ _
    rw [← hunpack₂] at hdiv
    exact pack_positive hdiv
  case isFalse =>
    refine pack_positive (u := UnpackedFloat.ofScientific Format.binary64 c (Int.negOfNat k)) ?_
    unfold UnpackedFloat.ofScientific
    split
    · rfl
    split
    · rfl
    split
    · rfl
    split
    · exact roundWithAccuracy_positive _ _ _
    · exact roundWithAccuracy_positive _ _ _

end LoxLang
