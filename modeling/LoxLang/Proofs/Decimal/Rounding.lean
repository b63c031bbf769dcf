import LoxLang.Decimal.Shortest
import Mathlib

/-!
# Rounding to doubles

What division and rounding of doubles do, said with rational numbers.

* **`IsDouble`** — the finite doubles `m · 2 ^ q`, each written in one way.
* **`RoundsTo`** — a rational lies in the interval of those that round to a double.
* **`Truncates`** — what a mantissa says about the number whose first bits it holds, with its round bit and sticky bit.
* **`round_eq`** — where a number rounds to a double, rounding gives that double; `div_eq` and `mul_eq` for quotients
  and products.

Rounding first drops bits until the mantissa has 53 or the exponent is the least one. The only other exponent that can
come of this is one less, just below a power of two; the mantissa is then rounded up to that power and shifted again.
-/

namespace LoxLang

open Float.Model Float.Model.UnpackedFloat

/-! ## Doubles

The interval of a double contains its bounds if the mantissa is even, since ties go to even mantissas. Below a power of
two it is half as wide. -/

/-- The number `m · 2 ^ q` is a finite double: of its ways to be written the one with the least exponent that the format
has. It is narrow if the next smaller double is half as far away as the next larger one. -/
structure IsDouble (m : Nat) (q : Int) (narrow : Bool) : Prop where
  pos : 0 < m
  lt : m < 2 ^ 53
  least : -1074 ≤ q
  most : q ≤ 971
  normal : 2 ^ 52 ≤ m ∨ q = -1074
  narrow_iff : narrow = true ↔ m = 2 ^ 52 ∧ q ≠ -1074

/-- The numbers that round to `m · 2 ^ q`: those up to half way to the next double on either side, these ends only if
`m` is even. -/
def RoundsTo (m : Nat) (q : Int) (narrow : Bool) (v : ℚ) : Prop :=
  if m % 2 = 0 then (m - if narrow then 1 / 4 else 1 / 2) * 2 ^ q ≤ v ∧ v ≤ (m + 1 / 2) * 2 ^ q
  else (m - if narrow then 1 / 4 else 1 / 2) * 2 ^ q < v ∧ v < (m + 1 / 2) * 2 ^ q

section

variable {m : Nat} {q : Int} {narrow : Bool} {v w : ℚ}

theorem two_zpow_pos (q : Int) : (0 : ℚ) < 2 ^ q :=
  zpow_pos (by norm_num) q

/-- The width of the interval. -/
theorem RoundsTo.bounds (h : RoundsTo m q narrow v) :
    (m - if narrow then 1 / 4 else 1 / 2) * 2 ^ q ≤ v ∧ v ≤ (m + 1 / 2) * 2 ^ q := by
  unfold RoundsTo at h
  split at h
  · exact h
  · exact ⟨h.1.le, h.2.le⟩

/-- What rounds to a positive double is positive. -/
theorem RoundsTo.pos (hm : 0 < m) (h : RoundsTo m q narrow v) : 0 < v := by
  have hm' : (1 : ℚ) ≤ m := by exact_mod_cast hm
  refine lt_of_lt_of_le (mul_pos ?_ (two_zpow_pos q)) h.bounds.1
  split <;> linarith

/-- The double and what is above it by less than half of a unit in the last place. -/
theorem RoundsTo.of_le_of_lt (hle : m * 2 ^ q ≤ v) (hlt : v < (m + 1 / 2) * 2 ^ q) : RoundsTo m q narrow v := by
  have hlow : (m - if narrow then 1 / 4 else 1 / 2 : ℚ) * 2 ^ q < m * 2 ^ q := by
    refine mul_lt_mul_of_pos_right ?_ (two_zpow_pos q)
    split <;> linarith
  unfold RoundsTo
  split
  · exact ⟨hlow.le.trans hle, hlt.le⟩
  · exact ⟨hlow.trans_le hle, hlt⟩

/-- A double rounds to itself. -/
theorem RoundsTo.self (m : Nat) (q : Int) (narrow : Bool) : RoundsTo m q narrow (m * 2 ^ q) :=
  .of_le_of_lt le_rfl (mul_lt_mul_of_pos_right (by linarith) (two_zpow_pos q))

/-- What is between two such numbers is one too. -/
theorem RoundsTo.between {x : ℚ} (hv : RoundsTo m q narrow v) (hw : RoundsTo m q narrow w) (hvx : v ≤ x)
    (hxw : x ≤ w) : RoundsTo m q narrow x := by
  unfold RoundsTo at hv hw ⊢
  split
  case isTrue heven =>
    rw [if_pos heven] at hv hw
    exact ⟨hv.1.trans hvx, hxw.trans hw.2⟩
  case isFalse hodd =>
    rw [if_neg hodd] at hv hw
    exact ⟨hv.1.trans_le hvx, hxw.trans_lt hw.2⟩

/-- In units of the last place the number is within a half of the mantissa. -/
theorem RoundsTo.near (h : RoundsTo m q narrow v) :
    if m % 2 = 0 then (m : ℚ) - 1 / 2 ≤ v / 2 ^ q ∧ v / 2 ^ q ≤ m + 1 / 2
    else (m : ℚ) - 1 / 2 < v / 2 ^ q ∧ v / 2 ^ q < m + 1 / 2 := by
  have hpos := two_zpow_pos q
  have hhalf : (m : ℚ) - 1 / 2 ≤ m - if narrow then 1 / 4 else 1 / 2 := by
    split <;> linarith
  unfold RoundsTo at h
  split
  case isTrue heven =>
    rw [if_pos heven, ← le_div_iff₀ hpos, ← div_le_iff₀ hpos] at h
    exact ⟨hhalf.trans h.1, h.2⟩
  case isFalse hodd =>
    rw [if_neg hodd, ← lt_div_iff₀ hpos, ← div_lt_iff₀ hpos] at h
    exact ⟨hhalf.trans_lt h.1, h.2⟩

end

/-! ## Mantissas and what they stand for

A mantissa with two more bits tells of a number where it lies between two integers: at the lower one, in the first half,
at the middle, in the second half. -/

/-- What a mantissa with its residual bits says about a number in units of its last place: the number is the mantissa,
or lies between it and the next one, below, at or above the middle. -/
def Truncates (em : ExtendedMantissa) (x : ℚ) : Prop :=
  match em.roundBit, em.stickyBit with
  | false, false => x = em.mantissa
  | false, true => em.mantissa < x ∧ x < em.mantissa + 1 / 2
  | true, false => x = em.mantissa + 1 / 2
  | true, true => em.mantissa + 1 / 2 < x ∧ x < em.mantissa + 1

namespace Truncates

variable {em : ExtendedMantissa} {x : ℚ}

/-- The mantissa is the integer part. -/
theorem bounds (h : Truncates em x) : em.mantissa ≤ x ∧ x < em.mantissa + 1 := by
  obtain ⟨m, round, sticky⟩ := em
  cases round <;> cases sticky <;> simp only [Truncates] at h ⊢ <;> constructor <;> linarith

/-- A mantissa and what is left of a division by `d`. -/
theorem ofFraction (n : Nat) {d : Nat} (hd : 0 < d) :
    Truncates (.ofMantissaAndAccuracy (n / d) (accuracyOfFraction (n % d) d)) ((n : ℚ) / d) := by
  have hd' : (0 : ℚ) < d := by exact_mod_cast hd
  have hsplit : (n : ℚ) / d = (n / d : Nat) + (n % d : Nat) / (d : ℚ) := by
    rw [div_eq_iff hd'.ne', add_mul, div_mul_cancel₀ _ hd'.ne']
    exact_mod_cast (Nat.div_add_mod' n d).symm
  have hlt : ((n % d : Nat) : ℚ) / d < 1 := by
    rw [div_lt_one hd']
    exact_mod_cast Nat.mod_lt n hd
  rw [hsplit, accuracyOfFraction]
  split
  case isTrue hzero => simp [Truncates, ExtendedMantissa.ofMantissaAndAccuracy, hzero]
  case isFalse hzero =>
    have hpos : 0 < ((n % d : Nat) : ℚ) / d := div_pos (by exact_mod_cast Nat.pos_of_ne_zero hzero) hd'
    -- the remainder is compared with half of the divisor, which is what the two bits record
    rcases hcompare : compare (2 * (n % d)) d with _ | _ | _
    · have hhalf : ((n % d : Nat) : ℚ) / d < 1 / 2 := by
        rw [div_lt_div_iff₀ hd' two_pos]
        exact_mod_cast (by linarith [Nat.compare_eq_lt.mp hcompare] : n % d * 2 < 1 * d)
      simp only [Truncates, ExtendedMantissa.ofMantissaAndAccuracy]
      constructor <;> linarith
    · have hhalf : ((n % d : Nat) : ℚ) / d = 1 / 2 := by
        rw [div_eq_div_iff hd'.ne' two_ne_zero]
        exact_mod_cast (by linarith [Nat.compare_eq_eq.mp hcompare] : n % d * 2 = 1 * d)
      simp only [Truncates, ExtendedMantissa.ofMantissaAndAccuracy, hhalf]
    · have hhalf : 1 / 2 < ((n % d : Nat) : ℚ) / d := by
        rw [div_lt_div_iff₀ two_pos hd']
        exact_mod_cast (by linarith [Nat.compare_eq_gt.mp hcompare] : 1 * d < n % d * 2)
      simp only [Truncates, ExtendedMantissa.ofMantissaAndAccuracy]
      constructor <;> linarith

/-- Half of the number, with the lost bit kept in the two others. -/
theorem shiftRightOne (h : Truncates em x) : Truncates em.shiftRightOne (x / 2) := by
  obtain ⟨m, round, sticky⟩ := em
  have hm : (m : ℚ) = 2 * (m / 2 : Nat) + (m % 2 : Nat) := by exact_mod_cast (Nat.div_add_mod m 2).symm
  rcases Nat.mod_two_eq_zero_or_one m with hbit | hbit <;> rw [hbit] at hm <;> cases round <;> cases sticky <;>
    simp [Truncates, ExtendedMantissa.shiftRightOne, hbit] at h hm ⊢ <;> (try constructor) <;> linarith

theorem shiftRight (h : Truncates em x) (n : Nat) : Truncates (em >>> n) (x / 2 ^ n) := by
  change Truncates (n.repeat ExtendedMantissa.shiftRightOne em) _
  induction n with
  | zero => simpa [Nat.repeat] using h
  | succ n ih =>
    rw [pow_succ, ← div_div]
    exact ih.shiftRightOne

/-- A number within a half of a mantissa, or at a half of an even one, is rounded to it. -/
theorem roundedMantissa_eq (h : Truncates em x) {k : Nat}
    (hk : if k % 2 = 0 then (k : ℚ) - 1 / 2 ≤ x ∧ x ≤ k + 1 / 2 else (k : ℚ) - 1 / 2 < x ∧ x < k + 1 / 2) :
    em.roundedMantissa = k := by
  have hle : (k : ℚ) - 1 / 2 ≤ x ∧ x ≤ k + 1 / 2 := by
    split at hk
    · exact hk
    · exact ⟨hk.1.le, hk.2.le⟩
  obtain ⟨m, round, sticky⟩ := em
  have hbounds := h.bounds
  have hlow : k ≤ m + 1 := by
    have : (k : ℚ) < m + 2 := by linarith
    have : k < m + 2 := by exact_mod_cast this
    omega
  have hhigh : m ≤ k := by
    have : (m : ℚ) < k + 1 := by linarith
    have : m < k + 1 := by exact_mod_cast this
    omega
  obtain rfl | rfl : k = m ∨ k = m + 1 := by omega
  all_goals
    cases round <;> cases sticky <;>
      simp only [Truncates, ExtendedMantissa.roundedMantissa, ExtendedMantissa.accuracy, Accuracy.roundToNearestEven,
        Nat.cast_add, Nat.cast_one] at h hle hk ⊢
  all_goals (try linarith)
  -- the number is in the middle between two mantissas, and the one that it is near to is even
  all_goals
    split at hk
    · omega
    · linarith

end Truncates

/-! ## The exponent that is aimed at

The result has 53 bits or the least exponent, whichever is the larger exponent. -/

/-- With a mantissa of `e` bits in total. -/
theorem targetExponent_eq_max (e : Int) : Format.binary64.targetExponent e = max (e - 53) (-1074) :=
  rfl

/-- With the mantissa and its exponent given. -/
theorem targetExponent_eq (m : Nat) (e : Int) :
    Format.binary64.targetExponent (totalExponent m e) = max ((m.log2 : Int) + e - 52) (-1074) := by
  rw [targetExponent_eq_max, totalExponent]
  omega

/-- A number whose first bits are told is below the 53rd power of two above the exponent aimed at, and not below the
52nd, unless the exponent is the least one. -/
theorem Truncates.target_bounds {mantissa : Nat} {accuracy : Accuracy} {e : Int} {v : ℚ}
    (h : Truncates (.ofMantissaAndAccuracy mantissa accuracy) (v / 2 ^ e))
    (he : e ≤ Format.binary64.targetExponent (totalExponent mantissa e)) :
    let target := Format.binary64.targetExponent (totalExponent mantissa e)
    v < 2 ^ (target + 53) ∧ (target = -1074 ∨ 2 ^ (target + 52) ≤ v) := by
  have hmantissa : (ExtendedMantissa.ofMantissaAndAccuracy mantissa accuracy).mantissa = mantissa := by
    unfold ExtendedMantissa.ofMantissaAndAccuracy
    split <;> rfl
  obtain ⟨hlow, hhigh⟩ := h.bounds
  rw [hmantissa] at hlow hhigh
  have hpos := two_zpow_pos e
  rw [le_div_iff₀ hpos] at hlow
  rw [div_lt_iff₀ hpos] at hhigh
  rw [targetExponent_eq] at he ⊢
  -- bounds on the mantissa are turned into bounds on the number by the exponent
  have hscale : ∀ n : Nat, ((2 ^ n : Nat) : ℚ) * 2 ^ e = 2 ^ ((n : Int) + e) := by
    intro n
    rw [zpow_add₀ two_ne_zero, zpow_natCast]
    push_cast
    rfl
  have habove : v < 2 ^ ((mantissa.log2 + 1 : Nat) + e) := by
    rw [← hscale]
    refine hhigh.trans_le (mul_le_mul_of_nonneg_right ?_ hpos.le)
    exact_mod_cast Nat.lt_log2_self
  dsimp only
  refine ⟨habove.trans_le (zpow_le_zpow_right₀ one_le_two (by push_cast; omega)), ?_⟩
  by_cases hzero : mantissa = 0
  · subst hzero
    rw [Nat.log2_zero] at he ⊢
    left
    omega
  · by_cases hleast : (mantissa.log2 : Int) + e - 52 ≤ -1074
    · left
      omega
    · right
      have hbelow : (2 : ℚ) ^ ((mantissa.log2 : Int) + e) ≤ v := by
        rw [← hscale]
        refine le_trans (mul_le_mul_of_nonneg_right ?_ hpos.le) hlow
        exact_mod_cast Nat.log2_self_le hzero
      refine le_trans (zpow_le_zpow_right₀ one_le_two ?_) hbelow
      omega

/-- The exponent that is aimed at is that of the double, or one less for a number below a narrow double. -/
theorem target_cases {m : Nat} {q target : Int} {narrow : Bool} {v : ℚ} (hd : IsDouble m q narrow)
    (hv : RoundsTo m q narrow v) (hleast : -1074 ≤ target) (habove : v < 2 ^ (target + 53))
    (hbelow : target = -1074 ∨ 2 ^ (target + 52) ≤ v) :
    target = q ∨ (narrow = true ∧ target = q - 1) := by
  obtain ⟨hlow, hhigh⟩ := hv.bounds
  have hpos := two_zpow_pos q
  have hpow : ∀ n : Nat, ∀ e : Int, e = q + n → (2 : ℚ) ^ e = 2 ^ n * 2 ^ q := by
    rintro n _ rfl
    rw [zpow_add₀ two_ne_zero, zpow_natCast, mul_comm]
  have hm : (m : ℚ) + 1 ≤ 2 ^ 53 := by exact_mod_cast hd.lt
  have hle : target ≤ q := by
    by_contra hgt
    have hge := hbelow.resolve_left (by have := hd.least; omega)
    have hlt : (2 : ℚ) ^ (target + 52) < 2 ^ (q + 53) := by
      rw [hpow 53 (q + 53) rfl]
      exact lt_of_le_of_lt (hge.trans hhigh) (mul_lt_mul_of_pos_right (by linarith) hpos)
    have := (zpow_lt_zpow_iff_right₀ one_lt_two).mp hlt
    omega
  by_cases heq : target = q
  · exact .inl heq
  · -- below the binade of the double: the double is the least of its binade, and the number below it
    have hq : q ≠ -1074 := by omega
    have hnormal := hd.normal.resolve_right hq
    have hlt : v < 2 ^ 52 * 2 ^ q := by
      rw [← hpow 52 (q + 52) rfl]
      exact habove.trans_le (zpow_le_zpow_right₀ one_le_two (by omega))
    have hnarrow : narrow = true := by
      by_contra hnot
      rw [if_neg hnot] at hlow
      have hne : m ≠ 2 ^ 52 := fun h => hnot (hd.narrow_iff.mpr ⟨h, hq⟩)
      have hmore : (2 : ℚ) ^ 52 + 1 ≤ m := by exact_mod_cast Nat.lt_of_le_of_ne hnormal hne.symm
      nlinarith
    refine .inr ⟨hnarrow, ?_⟩
    by_contra hne
    have hm52 : (m : ℚ) = 2 ^ 52 := by exact_mod_cast (hd.narrow_iff.mp hnarrow).1
    rw [if_pos hnarrow, hm52] at hlow
    have hlt' : v < 2 ^ 51 * 2 ^ q := by
      rw [← hpow 51 (q + 51) rfl]
      exact habove.trans_le (zpow_le_zpow_right₀ one_le_two (by omega))
    nlinarith

/-! ## Rounding

The number lies in the interval of a double, so the mantissa with its two bits is rounded to that of the double; only
next to a power of two the exponent has to be changed by one. -/

/-- A mantissa that fits is left alone. -/
theorem shiftToTargetExponent_of_lt {m : Nat} {e : Int} (hm : m < 2 ^ 53) (he : -1074 ≤ e) :
    shiftToTargetExponent Format.binary64 m e .exact = (⟨m, false, false⟩, e) := by
  have hlog : m.log2 ≤ 52 := by
    by_cases hzero : m = 0
    · subst hzero
      decide
    · have := (Nat.log2_lt hzero).mpr hm
      omega
  have hamount : (Format.binary64.targetExponent (totalExponent m e) - e).toNat = 0 := by
    rw [targetExponent_eq]
    omega
  simp [shiftToTargetExponent, shiftToExponent, hamount, HShiftRight.hShiftRight, Nat.repeat,
    ExtendedMantissa.ofMantissaAndAccuracy]

/-- A mantissa that has become too long is a power of two and is halved. -/
theorem shiftToTargetExponent_of_eq {e : Int} (he : -1074 ≤ e + 1) :
    shiftToTargetExponent Format.binary64 (2 ^ 53) e .exact = (⟨2 ^ 52, false, false⟩, e + 1) := by
  have htarget : Format.binary64.targetExponent (totalExponent (2 ^ 53) e) = e + 1 := by
    rw [targetExponent_eq, Nat.log2_two_pow]
    omega
  have hamount : (e + 1 - e).toNat = 1 := by omega
  rw [shiftToTargetExponent, htarget, shiftToExponent, hamount]
  rfl

/-- **Rounding.** A number that rounds to a double is rounded to it, if its first bits are told and the exponent is not
larger than the one that is aimed at. -/
theorem round_eq {m mantissa : Nat} {q e : Int} {narrow : Bool} {v : ℚ} (hd : IsDouble m q narrow)
    (hv : RoundsTo m q narrow v) {accuracy : Accuracy}
    (h : Truncates (.ofMantissaAndAccuracy mantissa accuracy) (v / 2 ^ e))
    (he : e ≤ Format.binary64.targetExponent (totalExponent mantissa e)) (sign : Sign) :
    roundWithAccuracy Format.binary64 sign mantissa e accuracy = .finite sign m q hd.pos := by
  obtain ⟨habove, hbelow⟩ := h.target_bounds he
  have hleast : -1074 ≤ Format.binary64.targetExponent (totalExponent mantissa e) := by
    rw [targetExponent_eq]
    omega
  have htarget := target_cases hd hv hleast habove hbelow
  generalize htargetEq : Format.binary64.targetExponent (totalExponent mantissa e) = target at *
  -- the first shift keeps what is told
  have hshift : e + ((target - e).toNat : Int) = target := by omega
  have htrunc := h.shiftRight (target - e).toNat
  rw [div_div, ← zpow_natCast, ← zpow_add₀ two_ne_zero, hshift] at htrunc
  have hfirst : shiftToTargetExponent Format.binary64 mantissa e accuracy
      = (ExtendedMantissa.ofMantissaAndAccuracy mantissa accuracy >>> (target - e).toNat, target) := by
    rw [shiftToTargetExponent, htargetEq, shiftToExponent, hshift]
  rcases htarget with rfl | ⟨hnarrow, rfl⟩
  · have hrounded := htrunc.roundedMantissa_eq hv.near
    simp only [roundWithAccuracy, hfirst, hrounded, shiftToTargetExponent_of_lt hd.lt hd.least, hd.pos.ne',
      ↓reduceDIte]
  · obtain ⟨rfl, hq⟩ := hd.narrow_iff.mp hnarrow
    have hhalf : (2 : ℚ) ^ q = 2 * 2 ^ (q - 1) := by
      rw [← zpow_one_add₀ two_ne_zero]
      congr 1
      omega
    have hpos := two_zpow_pos (q - 1)
    have hrounded : (ExtendedMantissa.ofMantissaAndAccuracy mantissa accuracy
        >>> (q - 1 - e).toNat).roundedMantissa = 2 ^ 53 := by
      refine htrunc.roundedMantissa_eq ?_
      rw [if_pos (by norm_num)]
      obtain ⟨hlow, -⟩ := hv.bounds
      rw [if_pos hnarrow, hhalf] at hlow
      rw [show q - 1 + 53 = (53 : Nat) + (q - 1) by push_cast; ring, zpow_add₀ two_ne_zero, zpow_natCast] at habove
      push_cast at hlow ⊢
      constructor
      · rw [le_div_iff₀ hpos]
        linarith
      · rw [div_le_iff₀ hpos]
        linarith
    have hsecond := shiftToTargetExponent_of_eq (e := q - 1) (by have := hd.least; omega)
    rw [Int.sub_add_cancel] at hsecond
    simp only [roundWithAccuracy, hfirst, hrounded, hsecond, hd.pos.ne', ↓reduceDIte]

/-- **Division.** A quotient that rounds to a double is that double. -/
theorem div_eq {m m₁ m₂ : Nat} {q e₁ e₂ : Int} {narrow : Bool} (hd : IsDouble m q narrow) (h₁ : 0 < m₁) (h₂ : 0 < m₂)
    (hv : RoundsTo m q narrow (m₁ * 2 ^ e₁ / (m₂ * 2 ^ e₂))) (sign₁ sign₂ : Sign) :
    UnpackedFloat.div Format.binary64 (.finite sign₁ m₁ e₁ h₁) (.finite sign₂ m₂ e₂ h₂)
      = .finite (sign₁ / sign₂) m q hd.pos := by
  unfold UnpackedFloat.div divCore
  dsimp only
  generalize htarget : min (e₁ - e₂) (Format.binary64.targetExponent (totalExponent m₁ e₁ - totalExponent m₂ e₂))
    = target
  have hle : target ≤ e₁ - e₂ := htarget ▸ min_le_left _ _
  rw [Nat.shiftLeft_eq]
  have htrunc := Truncates.ofFraction (m₁ * 2 ^ (e₁ - e₂ - target).toNat) h₂
  have hscaled : ((m₁ * 2 ^ (e₁ - e₂ - target).toNat : Nat) : ℚ) / m₂ = m₁ * 2 ^ e₁ / (m₂ * 2 ^ e₂) / 2 ^ target := by
    push_cast
    rw [← zpow_natCast, Int.toNat_of_nonneg (by omega), zpow_sub₀ two_ne_zero, zpow_sub₀ two_ne_zero]
    field_simp
  rw [hscaled] at htrunc
  refine round_eq hd hv htrunc ?_ _
  -- the quotient has bits enough, or the exponent is not larger than the least one
  rw [targetExponent_eq]
  have htotal : target ≤ max (totalExponent m₁ e₁ - totalExponent m₂ e₂ - 53) (-1074) := by
    rw [← htarget, ← targetExponent_eq_max]
    exact min_le_right _ _
  by_cases hleast : target ≤ -1074
  · exact hleast.trans (le_max_right _ _)
  · refine le_max_of_le_left ?_
    unfold totalExponent at htotal
    have hn : m₂.log2 + 53 ≤ m₁.log2 + (e₁ - e₂ - target).toNat := by omega
    have hquotient : 2 ^ 52 ≤ m₁ * 2 ^ (e₁ - e₂ - target).toNat / m₂ := by
      rw [Nat.le_div_iff_mul_le h₂]
      calc 2 ^ 52 * m₂ ≤ 2 ^ 52 * 2 ^ (m₂.log2 + 1) := Nat.mul_le_mul_left _ Nat.lt_log2_self.le
        _ = 2 ^ (m₂.log2 + 53) := by rw [← Nat.pow_add]; congr 1; omega
        _ ≤ 2 ^ (m₁.log2 + (e₁ - e₂ - target).toNat) := Nat.pow_le_pow_right two_pos hn
        _ = 2 ^ m₁.log2 * 2 ^ (e₁ - e₂ - target).toNat := Nat.pow_add ..
        _ ≤ m₁ * 2 ^ (e₁ - e₂ - target).toNat := Nat.mul_le_mul_right _ (Nat.log2_self_le h₁.ne')
    have := (Nat.le_log2 (by omega)).mpr hquotient
    omega

/-- **Multiplication.** A product that rounds to a double is that double, if its mantissa has bits enough. -/
theorem mul_eq {m m₁ m₂ : Nat} {q e₁ e₂ : Int} {narrow : Bool} (hd : IsDouble m q narrow) (h₁ : 0 < m₁) (h₂ : 0 < m₂)
    (hv : RoundsTo m q narrow (m₁ * 2 ^ e₁ * (m₂ * 2 ^ e₂))) (hbits : 2 ^ 52 ≤ m₁ * m₂) (sign₁ sign₂ : Sign) :
    UnpackedFloat.mul Format.binary64 (.finite sign₁ m₁ e₁ h₁) (.finite sign₂ m₂ e₂ h₂)
      = .finite (sign₁ * sign₂) m q hd.pos := by
  unfold UnpackedFloat.mul
  refine round_eq hd hv ?_ ?_ _
  · simp only [Truncates, ExtendedMantissa.ofMantissaAndAccuracy]
    push_cast
    rw [zpow_add₀ two_ne_zero]
    field_simp
  · rw [targetExponent_eq]
    have := (Nat.le_log2 (by positivity)).mpr hbits
    omega

end LoxLang
