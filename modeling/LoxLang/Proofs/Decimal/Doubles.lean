import LoxLang.Proofs.Decimal.Rounding

/-!
# Doubles and their shapes

What the shape of a double says about it.

* **`FloatShape.of_eq`** — the shape is read off the bits as the operations on doubles read them.
* **`isDouble_of_shape`** — a finite shape is a double in its normal form.
* **`FloatShape.of_injective`** — two doubles of one shape are the same double.
* **`unpack_pack`** — a finite double that is written to bits is read back.
* **`beq_iff`**, **`zero_le_iff`** — comparisons of doubles, said of their shapes.
-/

namespace LoxLang

open Float.Model Float.Model.UnpackedFloat

/-! ## The fields of a double

Sign, exponent and mantissa are cut out of the 64 bits by division, which is how they are read off here. -/

/-- The last 52 bits. -/
theorem unpackMantissa_toNat (b : BitVec 64) : (@unpackMantissa Format.binary64 b).toNat = b.toNat % 2 ^ 52 := by
  simp [unpackMantissa]

/-- The eleven bits before them. -/
theorem unpackExponent_toNat (b : BitVec 64) :
    (@unpackExponent Format.binary64 b).toNat = b.toNat / 2 ^ 52 % 2 ^ 11 := by
  simp [unpackExponent, Nat.shiftRight_eq_div_pow]

/-- The first bit. -/
theorem unpackSign_toNat (b : BitVec 64) : (@unpackSign Format.binary64 b).toNat = b.toNat / 2 ^ 63 := by
  have := b.isLt
  simp [unpackSign, Nat.shiftRight_eq_div_pow]
  omega

/-- Whether a sign is a minus. -/
def isNegative : Sign → Bool
  | .negative => true
  | .positive => false

/-- The shape of an unpacked double. -/
def FloatShape.ofUnpacked : UnpackedFloat → FloatShape
  | .notANumber => .nan
  | .infinity sign => .infinite (isNegative sign)
  | .zero sign => .zero (isNegative sign)
  | .finite sign m q _ => .finite (isNegative sign) m q (m == 2 ^ 52 && q != -1074)

theorem isNegative_ofBitVec (s : BitVec 1) : isNegative (Sign.ofBitVec s) = (s.toNat == 1) := by
  obtain rfl | rfl : s = 0#1 ∨ s = 1#1 := by
    have := s.isLt
    rcases (by omega : s.toNat = 0 ∨ s.toNat = 1) with h | h
    · exact .inl (BitVec.eq_of_toNat_eq h)
    · exact .inr (BitVec.eq_of_toNat_eq h)
  all_goals rfl

/-- A normal number has a leading one that is not stored. -/
theorem toNat_one_append (v : BitVec 52) : (1#1 ++ v).toNat = 2 ^ 52 + v.toNat := by
  rw [BitVec.toNat_append, ← Nat.shiftLeft_add_eq_or_of_lt v.isLt]
  simp [Nat.shiftLeft_eq]

/-- The bits are read alike for the shape and for the operations. -/
theorem FloatShape.ofBits_eq (bits : UInt64) :
    FloatShape.ofBits bits = .ofUnpacked (UnpackedFloat.unpack Format.binary64 bits.toBitVec) := by
  have hm := unpackMantissa_toNat bits.toBitVec
  have he := unpackExponent_toNat bits.toBitVec
  have hneg := isNegative_ofBitVec (@unpackSign Format.binary64 bits.toBitVec)
  rw [unpackSign_toNat] at hneg
  rw [UInt64.toNat_toBitVec] at hm he hneg
  -- the tests on fields of bits are tests on numbers
  have hbias : (Format.binary64.exponentBias : Int) + (52 : Nat) = 1075 := rfl
  have hzero : @unpackMantissa Format.binary64 bits.toBitVec = 0#52 ↔ bits.toNat % 2 ^ 52 = 0 := by
    rw [← BitVec.toNat_inj, hm]
    rfl
  have hones : @unpackExponent Format.binary64 bits.toBitVec = -1#11 ↔ bits.toNat / 2 ^ 52 % 2 ^ 11 = 2047 := by
    rw [← BitVec.toNat_inj, he]
    rfl
  have hnone : @unpackExponent Format.binary64 bits.toBitVec = 0#11 ↔ bits.toNat / 2 ^ 52 % 2 ^ 11 = 0 := by
    rw [← BitVec.toNat_inj, he]
    rfl
  simp only [FloatShape.ofBits, UnpackedFloat.unpack, hzero, hones, hnone, Nat.pow_eq]
  by_cases h2047 : bits.toNat / 2 ^ 52 % 2 ^ 11 = 2047
  · rw [if_pos h2047, if_pos h2047]
    by_cases h0 : bits.toNat % 2 ^ 52 = 0
    · rw [if_pos h0, if_pos h0, FloatShape.ofUnpacked, hneg]
    · rw [if_neg h0, if_neg h0, FloatShape.ofUnpacked]
  · rw [if_neg h2047, if_neg h2047]
    by_cases hexp : bits.toNat / 2 ^ 52 % 2 ^ 11 = 0
    · rw [if_pos hexp, if_pos hexp]
      by_cases h0 : bits.toNat % 2 ^ 52 = 0
      · rw [if_pos h0, dif_pos h0, FloatShape.ofUnpacked, hneg]
      · rw [if_neg h0, dif_neg h0, FloatShape.ofUnpacked, hneg, hm, he, hexp, hbias]
        simp
    · rw [if_neg hexp, if_neg hexp, FloatShape.ofUnpacked, hneg, toNat_one_append, hm, he, hbias]
      congr 1
      rw [Bool.eq_iff_iff]
      simp only [Bool.and_eq_true, beq_iff_eq, bne_iff_ne, ne_eq]
      omega

theorem FloatShape.of_eq (x : Float) : FloatShape.of x = .ofUnpacked x.toModel.unpack :=
  FloatShape.ofBits_eq _

/-! ## Shapes of doubles

A shape is the mantissa and the exponent with the sign beside them. It tells the bits, so no two doubles have the same
one. -/

/-- The mantissa of a normal number has 53 bits; that of a smaller one has the least exponent. Below a power of two the
next double is nearer. -/
theorem isDouble_of_shape {x : Float} {negative narrow : Bool} {m : Nat} {q : Int}
    (h : FloatShape.of x = .finite negative m q narrow) : IsDouble m q narrow := by
  have hlt := x.toBits.toBitVec.isLt
  rw [UInt64.toNat_toBitVec] at hlt
  simp only [FloatShape.of, FloatShape.ofBits, Nat.pow_eq] at h
  split at h
  · split at h <;> cases h
  · split at h
    · split at h
      · cases h
      · cases h
        constructor
        case narrow_iff => simp
        all_goals omega
    · cases h
      constructor
      case narrow_iff =>
        simp only [Bool.and_eq_true, beq_iff_eq, bne_iff_ne, ne_eq]
        omega
      all_goals omega

/-- The bits of a sign. -/
def signBits (negative : Bool) : Nat :=
  if negative then 2 ^ 63 else 0

/-- The bits of the double of a shape. -/
def FloatShape.bits : FloatShape → Nat
  | nan => 2047 * 2 ^ 52 + 2 ^ 51
  | infinite negative => signBits negative + 2047 * 2 ^ 52
  | zero negative => signBits negative
  | finite negative m q _ =>
    signBits negative + if m < 2 ^ 52 then m else (q + 1075).toNat * 2 ^ 52 + (m - 2 ^ 52)

/-- The sign is the highest bit. -/
theorem signBits_eq {n : Nat} (hn : n < 2 ^ 64) : signBits (n / 2 ^ 63 == 1) = n / 2 ^ 63 * 2 ^ 63 := by
  unfold signBits
  split
  case isTrue h =>
    rw [beq_iff_eq] at h
    omega
  case isFalse h =>
    rw [beq_iff_eq] at h
    omega

/-- The shape tells the bits. There is but one number that is none, so its bits are known too. -/
theorem FloatShape.bits_of (x : Float) : (FloatShape.of x).bits = x.toBits.toNat := by
  have hlt := x.toBits.toBitVec.isLt
  rw [UInt64.toNat_toBitVec] at hlt
  have hsign := signBits_eq hlt
  simp only [FloatShape.of, FloatShape.ofBits, Nat.pow_eq]
  split
  case isTrue hones =>
    split
    case isTrue hzero =>
      rw [FloatShape.bits, hsign]
      omega
    case isFalse hnan =>
      -- all numbers that are none have the bits of the one that is kept
      have hvalid := x.toModel.valid.eq_packedNaN ?_ ?_
      · rw [Float.toBits, ← UInt64.toNat_toBitVec, hvalid]
        rfl
      · rw [← BitVec.toNat_inj, unpackExponent_toNat]
        exact hones
      · rw [ne_eq, ← BitVec.toNat_inj, unpackMantissa_toNat]
        exact hnan
  case isFalse =>
    split
    case isTrue hexponent =>
      split
      case isTrue hzero =>
        rw [FloatShape.bits, hsign]
        omega
      case isFalse =>
        rw [FloatShape.bits, hsign, if_pos (by omega)]
        omega
    case isFalse =>
      rw [FloatShape.bits, hsign, if_neg (by omega)]
      omega

/-- The bits of a double can be made from its shape. -/
theorem FloatShape.of_injective {x y : Float} (h : FloatShape.of x = FloatShape.of y) : x = y := by
  have hbits := congrArg FloatShape.bits h
  rw [bits_of, bits_of, UInt64.toNat_inj] at hbits
  obtain ⟨⟨bitsX, _⟩⟩ := x
  obtain ⟨⟨bitsY, _⟩⟩ := y
  cases hbits
  rfl

/-! ## Writing and reading bits

The operations of the library unpack their arguments and pack their results. Between two of them nothing is lost if the
result is a double. -/

theorem unpackSign_packComponents (sign : Sign) (exponent : BitVec 11) (mantissa : BitVec 52) :
    Sign.ofBitVec (unpackSign (packComponents Format.binary64 sign exponent mantissa)) = sign := by
  simp only [unpackSign, packComponents, BitVec.extractLsb]
  rw [BitVec.extractLsb'_append_eq_of_le (by omega), BitVec.extractLsb'_append_eq_of_le (by omega)]
  cases sign <;> rfl

/-- **Packing.** A finite double that is written to bits is read back. -/
theorem unpack_pack {m : Nat} {q : Int} {narrow : Bool} (hd : IsDouble m q narrow) (sign : Sign) (hm : 0 < m) :
    (Float.Model.pack (.finite sign m q hm)).unpack = .finite sign m q hm := by
  have hbias : (Format.binary64.exponentBias : Int) = 1023 := rfl
  have hbits : Format.binary64.mantissaBits = 53 := rfl
  have hleast := hd.least
  have hmost := hd.most
  have hlt := hd.lt
  change UnpackedFloat.unpack Format.binary64 (UnpackedFloat.pack Format.binary64 (.finite sign m q hm)) = _
  rw [UnpackedFloat.pack]
  dsimp only
  rw [hbias, hbits, if_neg (by push_cast; omega)]
  -- a full significand loses its leading bit when packed, and a subnormal one has no such bit
  by_cases hnormal : 2 ^ 52 ≤ m
  case pos =>
    have hlog : m.log2 = 52 := (Nat.log2_eq_iff (by omega)).mpr ⟨hnormal, hlt⟩
    have hexponent : (BitVec.ofNat 11 (q + 1023 + (52 : Nat)).toNat).toNat = (q + 1075).toNat := by
      rw [BitVec.toNat_ofNat]
      omega
    have hmantissa : (1#1 ++ BitVec.ofNat 52 m).toNat = m := by
      rw [toNat_one_append, BitVec.toNat_ofNat]
      omega
    have hones : BitVec.ofNat 11 (q + 1023 + (52 : Nat)).toNat ≠ -1#11 := by
      rw [ne_eq, ← BitVec.toNat_inj, hexponent]
      change ¬(q + 1075).toNat = 2047
      omega
    have hnone : BitVec.ofNat 11 (q + 1023 + (52 : Nat)).toNat ≠ 0#11 := by
      rw [ne_eq, ← BitVec.toNat_inj, hexponent]
      change ¬(q + 1075).toNat = 0
      omega
    rw [if_pos (by rw [hlog]), UnpackedFloat.unpack]
    simp only [unpackMantissa_packComponents, unpackExponent_packComponents, unpackSign_packComponents]
    rw [if_neg hones, if_neg hnone]
    simp only [hexponent, hmantissa, hbias]
    congr 1
    omega
  case neg =>
    have hlog : m.log2 < 52 := (Nat.log2_lt (by omega)).mpr (by omega)
    have hq := hd.normal.resolve_left hnormal
    have hmantissa : (BitVec.ofNat 52 m).toNat = m := by
      rw [BitVec.toNat_ofNat]
      omega
    have hzero : BitVec.ofNat 52 m ≠ 0#52 := by
      rw [ne_eq, ← BitVec.toNat_inj, hmantissa]
      exact hm.ne'
    rw [if_neg (by omega), UnpackedFloat.unpack]
    simp only [unpackMantissa_packComponents, unpackExponent_packComponents, unpackSign_packComponents]
    rw [if_neg (by decide), if_pos trivial, dif_neg hzero]
    simp only [hmantissa, hbias, hq]
    rfl

/-! ## Comparisons

Comparisons leave the sign of a zero out of account, and everything fails on what is not a number. -/

/-- A shape without the sign of a zero. -/
def FloatShape.unsigned : FloatShape → FloatShape
  | zero _ => zero false
  | shape => shape

theorem isNaN_iff (x : Float) : x.isNaN = true ↔ FloatShape.of x = .nan := by
  rw [FloatShape.of_eq, Float.isNaN, Float.Model.isNaN]
  cases x.toModel.unpack <;> simp [UnpackedFloat.isNaN, FloatShape.ofUnpacked]

/-- A finite double is a zero or has a mantissa. -/
theorem isFinite_iff (x : Float) :
    x.isFinite = true ↔ (∃ negative, FloatShape.of x = .zero negative)
      ∨ ∃ negative m q narrow, FloatShape.of x = .finite negative m q narrow := by
  rw [FloatShape.of_eq, Float.isFinite, Float.Model.isFinite]
  cases x.toModel.unpack <;> simp [UnpackedFloat.isFinite, FloatShape.ofUnpacked]

theorem sign_compare_eq_iff (s t : Sign) : compare s t = .eq ↔ isNegative s = isNegative t := by
  cases s <;> cases t <;> decide

theorem unpacked_beq_iff {u v : UnpackedFloat} (hu : u.isNaN = false) (hv : v.isNaN = false) :
    u.beq v = true ↔ (FloatShape.ofUnpacked u).unsigned = (FloatShape.ofUnpacked v).unsigned := by
  rw [UnpackedFloat.beq, beq_iff_eq]
  rcases u with (_ | _) | _ | (_ | _) | ⟨_ | _, m, q, hm⟩ <;>
    rcases v with (_ | _) | _ | (_ | _) | ⟨_ | _, m', q', hm'⟩ <;>
    first
    | exact Bool.noConfusion hu
    | exact Bool.noConfusion hv
    | simp [UnpackedFloat.compare, FloatShape.ofUnpacked, FloatShape.unsigned, isNegative, sign_compare_eq_iff]
  all_goals grind

/-- Two numbers are equal if their shapes are, but for the sign of a zero. -/
theorem beq_iff {x y : Float} (hx : x.isNaN = false) (hy : y.isNaN = false) :
    (x == y) = true ↔ (FloatShape.of x).unsigned = (FloatShape.of y).unsigned := by
  rw [FloatShape.of_eq, FloatShape.of_eq]
  exact unpacked_beq_iff hx hy

/-- A number that is not negative is infinite, a zero or has no sign. -/
theorem zero_le_iff (x : Float) :
    0 ≤ x ↔ FloatShape.of x = .infinite false ∨ (∃ negative, FloatShape.of x = .zero negative)
      ∨ ∃ m q narrow, FloatShape.of x = .finite false m q narrow := by
  rw [FloatShape.of_eq]
  have hzero : (0 : Float).toModel.unpack = .zero .positive := rfl
  change decide ((0 : Float).toModel.unpack.le x.toModel.unpack = true) = true ↔ _
  rw [hzero, decide_eq_true_eq]
  cases x.toModel.unpack with
  | notANumber => simp [UnpackedFloat.le, UnpackedFloat.compare, FloatShape.ofUnpacked]
  | infinity s => cases s <;> simp [UnpackedFloat.le, UnpackedFloat.compare, FloatShape.ofUnpacked, isNegative, Ordering.isLE]
  | zero s => simp [UnpackedFloat.le, UnpackedFloat.compare, FloatShape.ofUnpacked, Ordering.isLE]
  | finite s m q h => cases s <;> simp [UnpackedFloat.le, UnpackedFloat.compare, FloatShape.ofUnpacked, isNegative, Ordering.isLE]

/-- A negative number is infinite or has a sign. -/
theorem lt_zero_iff (x : Float) :
    x < 0 ↔ FloatShape.of x = .infinite true ∨ ∃ m q narrow, FloatShape.of x = .finite true m q narrow := by
  rw [FloatShape.of_eq]
  have hzero : (0 : Float).toModel.unpack = .zero .positive := rfl
  change decide (x.toModel.unpack.lt (0 : Float).toModel.unpack = true) = true ↔ _
  rw [hzero, decide_eq_true_eq]
  cases x.toModel.unpack with
  | notANumber => simp [UnpackedFloat.lt, UnpackedFloat.compare, FloatShape.ofUnpacked]
  | infinity s => cases s <;> simp [UnpackedFloat.lt, UnpackedFloat.compare, FloatShape.ofUnpacked, isNegative]
  | zero s => simp [UnpackedFloat.lt, UnpackedFloat.compare, FloatShape.ofUnpacked]
  | finite s m q h => cases s <;> simp [UnpackedFloat.lt, UnpackedFloat.compare, FloatShape.ofUnpacked, isNegative]

end LoxLang
