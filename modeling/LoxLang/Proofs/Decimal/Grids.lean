import LoxLang.Proofs.Decimal.Rounding

/-!
# Shortest decimals

The search over ever finer grids finds a decimal that rounds to the double, and none on a coarser grid does.

* **`RoundingInterval.holds_iff`** — the comparison over the naturals is the one of the rationals.
* **`onGrid?_rounds`**, **`onGrid?_isSome`** — a grid has a hit iff one of its decimals rounds to the double.
* **`shortest_spec`** — the decimal that is found rounds to the double, and no coarser grid has one that does.
* **`shortest_digits_le`** — no decimal that rounds to the double has fewer digits.
-/

namespace LoxLang

/-- The number that a decimal denotes. -/
def Decimal.value (d : Decimal) : ℚ :=
  d.coefficient * 10 ^ d.exponent

theorem ten_zpow_pos (p : Int) : (0 : ℚ) < 10 ^ p :=
  zpow_pos (by norm_num) p

/-- A power with an integer exponent as a quotient of two naturals. -/
theorem zpow_eq_div {b : Nat} (hb : 0 < b) (z : Int) :
    (b : ℚ) ^ z = (Nat.pow b z.toNat : Nat) / (Nat.pow b (-z).toNat : Nat) := by
  have hb' : (b : ℚ) ≠ 0 := by exact_mod_cast hb.ne'
  rw [Nat.pow_eq, Nat.pow_eq]
  push_cast
  rw [← zpow_natCast, ← zpow_natCast, ← zpow_sub₀ hb']
  congr 1
  omega

/-- The scale and the unit of a rounding interval. -/
theorem two_zpow_eq_scale (q : Int) :
    (2 : ℚ) ^ q = 4 * (Nat.pow 2 (q - 2).toNat : Nat) / (Nat.pow 2 (2 - q).toNat : Nat) := by
  have hsplit : (2 : ℚ) ^ q = 4 * (2 : Nat) ^ (q - 2) := by
    rw [show (2 : ℚ) ^ q = 2 ^ (2 + (q - 2)) by rw [add_sub_cancel], zpow_add₀ two_ne_zero]
    norm_num
  rw [hsplit, zpow_eq_div two_pos, neg_sub, mul_div_assoc]

theorem ten_zpow_eq_step (p : Int) :
    (10 : ℚ) ^ p = (Nat.pow 10 p.toNat : Nat) / (Nat.pow 10 (-p).toNat : Nat) := by
  exact_mod_cast zpow_eq_div (by norm_num : 0 < 10) p

section

variable {m : Nat} {q : Int} {narrow : Bool} {c : Nat} {p : Int}

/-! ## One grid

A grid is the multiples of a power of ten. Two of its decimals are next to the double, and one of them rounds to it if
any does. -/

/-- Both sides are multiplied by the denominators of the two powers, after which all numbers are natural. -/
theorem RoundingInterval.holds_iff (hm : 0 < m) :
    (RoundingInterval.of m q narrow).holds c p = true ↔ RoundsTo m q narrow (c * 10 ^ p) := by
  have hunit : (0 : ℚ) < (Nat.pow 2 (2 - q).toNat : Nat) := by exact_mod_cast Nat.pow_pos two_pos
  have hshrink : (0 : ℚ) < (Nat.pow 10 (-p).toNat : Nat) := by exact_mod_cast Nat.pow_pos (by norm_num)
  have hlow : ((4 * m - if narrow then 1 else 2 : Nat) : ℚ) = 4 * (m - if narrow then 1 / 4 else 1 / 2) := by
    rw [Nat.cast_sub (by split <;> omega)]
    split <;> push_cast <;> ring
  unfold RoundingInterval.holds RoundingInterval.of RoundsTo
  rw [two_zpow_eq_scale, ten_zpow_eq_step]
  -- the powers stay names from here on, for both sides only multiply out
  generalize Nat.pow 2 (q - 2).toNat = scale
  generalize Nat.pow 2 (2 - q).toNat = unit at hunit ⊢
  generalize Nat.pow 10 p.toNat = step
  generalize Nat.pow 10 (-p).toNat = shrink at hshrink ⊢
  dsimp only
  have hleft : ∀ δ : ℚ, (m - δ) * (4 * scale / unit) = 4 * (m - δ) * scale / unit := fun δ => by ring
  have hright : ((m : ℚ) + 1 / 2) * (4 * scale / unit) = (4 * m + 2) * scale / unit := by ring
  rw [hleft, hright, ← hlow, mul_div_assoc']
  by_cases heven : m % 2 = 0
  · simp only [heven, beq_self_eq_true, ↓reduceIte, Bool.and_eq_true, decide_eq_true_eq]
    rw [div_le_div_iff₀ hunit hshrink, div_le_div_iff₀ hshrink hunit]
    exact_mod_cast Iff.rfl
  · simp only [heven, beq_iff_eq, ↓reduceIte, Bool.and_eq_true, decide_eq_true_eq]
    rw [div_lt_div_iff₀ hunit hshrink, div_lt_div_iff₀ hshrink hunit]
    exact_mod_cast Iff.rfl

/-- The last decimal of a grid that is not above the double. -/
def RoundingInterval.floor (i : RoundingInterval) (p : Int) : Nat :=
  i.value * Nat.pow 10 (-p).toNat / (i.unit * Nat.pow 10 p.toNat)

/-- The double lies between two neighbours of a grid. -/
theorem RoundingInterval.floor_bounds (m : Nat) (q : Int) (narrow : Bool) (p : Int) :
    (((of m q narrow).floor p : Nat) : ℚ) * 10 ^ p ≤ m * 2 ^ q
      ∧ m * 2 ^ q < (((of m q narrow).floor p + 1 : Nat) : ℚ) * 10 ^ p := by
  have hunit : 0 < Nat.pow 2 (2 - q).toNat := Nat.pow_pos two_pos
  have hstep : 0 < Nat.pow 10 p.toNat := Nat.pow_pos (by norm_num)
  have hshrink : (0 : ℚ) < (Nat.pow 10 (-p).toNat : Nat) := by exact_mod_cast Nat.pow_pos (by norm_num)
  unfold floor of
  rw [two_zpow_eq_scale, ten_zpow_eq_step]
  -- only the product of the powers matters from here on
  generalize Nat.pow 2 (q - 2).toNat = scale
  generalize Nat.pow 2 (2 - q).toNat = unit at hunit ⊢
  generalize Nat.pow 10 p.toNat = step at hstep ⊢
  generalize Nat.pow 10 (-p).toNat = shrink at hshrink ⊢
  dsimp only
  have hunit' : (0 : ℚ) < unit := by exact_mod_cast hunit
  have hvalue : (m : ℚ) * (4 * scale / unit) = 4 * m * scale / unit := by ring
  have hle := Nat.div_mul_le_self (4 * m * scale * shrink) (unit * step)
  have hlt := Nat.lt_mul_div_succ (4 * m * scale * shrink) (Nat.mul_pos hunit hstep)
  generalize 4 * m * scale * shrink / (unit * step) = c at hle hlt
  rw [hvalue, mul_div_assoc', mul_div_assoc', div_le_div_iff₀ hshrink hunit', div_lt_div_iff₀ hunit' hshrink]
  constructor
  · exact_mod_cast (by linarith : c * step * unit ≤ 4 * m * scale * shrink)
  · exact_mod_cast (by linarith : 4 * m * scale * shrink < (c + 1) * step * unit)

/-- What a grid yields is on it and rounds to the double. -/
theorem RoundingInterval.onGrid?_rounds (hm : 0 < m) {d : Decimal} (h : (of m q narrow).onGrid? p = some d) :
    RoundsTo m q narrow d.value ∧ d.exponent = p := by
  have hrounds : ∀ c, (of m q narrow).holds c p = true → RoundsTo m q narrow (Decimal.value ⟨c, p⟩) :=
    fun c => (holds_iff hm).mp
  unfold onGrid? at h
  dsimp only at h
  -- one of the two neighbours is in the interval, both are, or none is
  split at h
  case h_1 hc _ =>
    cases h
    exact ⟨hrounds _ hc, rfl⟩
  case h_2 _ hc =>
    cases h
    exact ⟨hrounds _ hc, rfl⟩
  case h_3 hc hc' =>
    cases h
    refine ⟨?_, rfl⟩
    split
    · exact hrounds _ hc
    · exact hrounds _ hc'
  case h_4 => cases h

/-- A grid with a decimal that rounds to the double yields one. -/
theorem RoundingInterval.onGrid?_isSome (hm : 0 < m) (h : RoundsTo m q narrow (c * 10 ^ p)) :
    ((of m q narrow).onGrid? p).isSome = true := by
  obtain ⟨hlow, hhigh⟩ := floor_bounds m q narrow p
  have hstep := ten_zpow_pos p
  -- one of the neighbours of the double is between it and the decimal
  have hneighbour : (of m q narrow).holds ((of m q narrow).floor p) p = true
      ∨ (of m q narrow).holds ((of m q narrow).floor p + 1) p = true := by
    rw [holds_iff hm, holds_iff hm]
    by_cases hc : c ≤ (of m q narrow).floor p
    · refine .inl (h.between (.self m q narrow) ?_ hlow)
      exact mul_le_mul_of_nonneg_right (by exact_mod_cast hc) hstep.le
    · refine .inr (RoundsTo.between (.self m q narrow) h hhigh.le ?_)
      exact mul_le_mul_of_nonneg_right (by exact_mod_cast (by omega : (of m q narrow).floor p + 1 ≤ c)) hstep.le
  unfold floor at hneighbour
  unfold onGrid?
  dsimp only
  split
  case h_4 hnot hnot' =>
    rw [hnot, hnot'] at hneighbour
    simp at hneighbour
  all_goals rfl

/-! ## All grids

From the coarsest to the finest; the first grid with a hit is taken. -/

/-- If one of the grids has a decimal that rounds to the double, the one that is found rounds to it, and no coarser grid
of them has one. -/
theorem RoundingInterval.onGrids_spec (hm : 0 < m) {p' : Int} (h : RoundsTo m q narrow (c * 10 ^ p')) (grids : Nat) (p : Int)
    (hlow : p - grids < p') (hhigh : p' ≤ p) :
    let d := (of m q narrow).onGrids grids p
    RoundsTo m q narrow d.value ∧ d.exponent ≤ p
      ∧ ∀ (b : Nat) (e : Int), d.exponent < e → e ≤ p → ¬RoundsTo m q narrow (b * 10 ^ e) := by
  -- on the number of grids that are left, from the coarsest to finer ones
  induction grids generalizing p with
  | zero =>
    push_cast at hlow
    omega
  | succ grids ih =>
    rw [onGrids]
    cases hgrid : (of m q narrow).onGrid? p with
    | some d =>
      obtain ⟨hrounds, rfl⟩ := onGrid?_rounds hm hgrid
      refine ⟨hrounds, le_refl _, fun b e hlt hle => ?_⟩
      rw [Option.getD_some] at hlt
      omega
    | none =>
      have hnone : ∀ b : Nat, ¬RoundsTo m q narrow (b * 10 ^ p) := by
        intro b hb
        have := onGrid?_isSome hm hb
        rw [hgrid] at this
        cases this
      have hne : p' ≠ p := by
        rintro rfl
        exact hnone c h
      obtain ⟨hrounds, hexponent, hcoarser⟩ := ih (p - 1) (by push_cast at hlow; omega) (by omega)
      refine ⟨hrounds, hexponent.trans (by omega), fun b e hlt hle => ?_⟩
      rcases hle.lt_or_eq with hlt' | rfl
      · exact hcoarser b e hlt (by omega)
      · exact hnone b

/-! ## The coarsest grid and the finest

The number of digits before the point is estimated by a rational for the logarithm of two. The estimate is at most one
too large, and on the finest grid the steps are smaller than the interval of any double. -/

/-- Whether the estimate of the powers of ten above a power of two, and of those far below it, is right. -/
def estimateFits (b : Int) : Bool :=
  let top := b * 30103 / 100000 + 1
  2 ^ b.toNat * 10 ^ (-top).toNat ≤ 10 ^ top.toNat * 2 ^ (-b).toNat
    && 10 ^ (top - 20).toNat * 2 ^ (54 - b).toNat < 2 ^ (b - 54).toNat * 10 ^ (20 - top).toNat

theorem estimateFits_all : ∀ i : Fin 2098, estimateFits (i.val - 1073) = true := by
  decide +kernel

/-- The estimate is checked for all exponents that a double can have. -/
theorem estimate {b : Int} (hlow : -1073 ≤ b) (hhigh : b ≤ 1024) :
    (2 : ℚ) ^ b ≤ 10 ^ (b * 30103 / 100000 + 1) ∧ (10 : ℚ) ^ (b * 30103 / 100000 + 1 - 20) < 2 ^ (b - 54) := by
  have hfits := estimateFits_all ⟨(b + 1073).toNat, by omega⟩
  dsimp only at hfits
  rw [Int.toNat_of_nonneg (by omega), Int.add_sub_cancel] at hfits
  simp only [estimateFits, Bool.and_eq_true, decide_eq_true_eq] at hfits
  generalize b * 30103 / 100000 + 1 = top at hfits ⊢
  have hpos : ∀ (n : Nat), (0 : ℚ) < (Nat.pow 10 n : Nat) ∧ (0 : ℚ) < (Nat.pow 2 n : Nat) :=
    fun n => ⟨by exact_mod_cast Nat.pow_pos (by norm_num), by exact_mod_cast Nat.pow_pos two_pos⟩
  have htwo : ∀ z : Int, (2 : ℚ) ^ z = (Nat.pow 2 z.toNat : Nat) / (Nat.pow 2 (-z).toNat : Nat) :=
    fun z => by exact_mod_cast zpow_eq_div two_pos z
  rw [htwo, htwo, ten_zpow_eq_step, ten_zpow_eq_step, neg_sub, neg_sub,
    div_le_div_iff₀ (hpos _).2 (hpos _).1, div_lt_div_iff₀ (hpos _).1 (hpos _).2]
  exact ⟨by exact_mod_cast hfits.1, by exact_mod_cast hfits.2⟩

/-- The exponent of the coarsest grid is the estimate. -/
theorem topExponent_eq (hm : 0 < m) :
    (RoundingInterval.of m q narrow).topExponent = (m.log2 + q + 1) * 30103 / 100000 + 1 := by
  have hlog : ∀ n k : Nat, 0 < n → (n * 2 ^ k).log2 = n.log2 + k := by
    intro n k hn
    refine (Nat.log2_eq_iff (by positivity)).mpr ⟨?_, ?_⟩
    · rw [Nat.pow_add]
      exact Nat.mul_le_mul_right _ (Nat.log2_self_le hn.ne')
    · rw [Nat.add_right_comm, Nat.pow_add]
      exact Nat.mul_lt_mul_of_pos_right Nat.lt_log2_self (Nat.two_pow_pos _)
  unfold RoundingInterval.topExponent RoundingInterval.of
  dsimp only
  rw [Nat.pow_eq, Nat.pow_eq, hlog _ _ (by omega), Nat.log2_two_pow, show 4 * m = m * 2 ^ 2 by ring, hlog _ _ hm]
  congr 3
  push_cast
  omega

/-- The number of the double's binary digits before the point. -/
theorem IsDouble.log2_bounds (hd : IsDouble m q narrow) :
    -1073 ≤ m.log2 + q + 1 ∧ m.log2 + q + 1 ≤ 1024 ∧ (m.log2 : Int) + q + 1 - 54 ≤ q - 1 := by
  have hlog : m.log2 < 53 := (Nat.log2_lt hd.pos.ne').mpr hd.lt
  have := hd.least
  have := hd.most
  omega

/-! ## The shortest decimal

No grid before the one that is taken has a hit, and on this grid the decimal that is nearer was taken. -/

/-- What is found rounds to the double, and no decimal of a coarser grid does. -/
theorem shortest_spec (hd : IsDouble m q narrow) :
    RoundsTo m q narrow (Decimal.shortest m q narrow).value
      ∧ ∀ (b : Nat) (e : Int), (Decimal.shortest m q narrow).exponent < e → ¬RoundsTo m q narrow (b * 10 ^ e) := by
  obtain ⟨hleast, hmost, hfine⟩ := hd.log2_bounds
  obtain ⟨htop, hbottom⟩ := estimate hleast hmost
  have hexponent := @topExponent_eq m q narrow hd.pos
  unfold Decimal.shortest
  dsimp only
  rw [hexponent]
  generalize ((m.log2 : Int) + q + 1) * 30103 / 100000 + 1 = top at htop hbottom ⊢
  -- the finest grid has a decimal just above the double
  have hhit : RoundsTo m q narrow
      (((RoundingInterval.of m q narrow).floor (top - 20) + 1 : Nat) * 10 ^ (top - 20)) := by
    obtain ⟨hlow, hhigh⟩ := RoundingInterval.floor_bounds m q narrow (top - 20)
    refine .of_le_of_lt hhigh.le ?_
    have hhalf : (2 : ℚ) ^ ((m.log2 : Int) + q + 1 - 54) ≤ 1 / 2 * 2 ^ q := by
      refine (zpow_le_zpow_right₀ one_le_two hfine).trans_eq ?_
      rw [zpow_sub₀ two_ne_zero, zpow_one]
      ring
    push_cast
    linarith
  obtain ⟨hrounds, -, hcoarser⟩ := RoundingInterval.onGrids_spec hd.pos hhit 21 top (by norm_num) (by omega)
  refine ⟨hrounds, fun b e hlt hb => ?_⟩
  rcases le_or_gt e top with hle | hgt
  · exact hcoarser b e hlt hle hb
  · -- the least decimal of a still coarser grid is above all that round to the double
    have hb0 : (1 : ℚ) ≤ b := by
      rcases Nat.eq_zero_or_pos b with rfl | hpos
      · have := hb.pos hd.pos
        norm_num at this
      · exact_mod_cast hpos
    have habove : (10 : ℚ) ^ top < b * 10 ^ e :=
      calc (10 : ℚ) ^ top < 10 ^ e := zpow_lt_zpow_right₀ (by norm_num) hgt
        _ ≤ b * 10 ^ e := le_mul_of_one_le_left (ten_zpow_pos e).le hb0
    have hbelow : (b : ℚ) * 10 ^ e ≤ 2 ^ ((m.log2 : Int) + q + 1) :=
      calc (b : ℚ) * 10 ^ e ≤ (m + 1 / 2) * 2 ^ q := hb.bounds.2
        _ ≤ 2 ^ (m.log2 + 1) * 2 ^ q := by
          refine mul_le_mul_of_nonneg_right ?_ (two_zpow_pos q).le
          have : (m : ℚ) + 1 ≤ 2 ^ (m.log2 + 1) := by exact_mod_cast Nat.lt_log2_self
          linarith
        _ = 2 ^ ((m.log2 : Int) + q + 1) := by
          rw [← zpow_natCast, ← zpow_add₀ two_ne_zero]
          congr 1
          push_cast
          ring
    linarith

/-! ## Its digits

A decimal with fewer digits would lie on a coarser grid. -/

/-- A positive double is not rounded to from zero. -/
theorem shortest_pos (hd : IsDouble m q narrow) : 0 < (Decimal.shortest m q narrow).coefficient := by
  have hpos := (shortest_spec hd).1.pos hd.pos
  by_contra hzero
  rw [Decimal.value, Nat.eq_zero_of_not_pos hzero] at hpos
  norm_num at hpos

/-- The last digit is not a zero: the decimal would be one of the next coarser grid. -/
theorem shortest_mod_ten (hd : IsDouble m q narrow) : (Decimal.shortest m q narrow).coefficient % 10 ≠ 0 := by
  intro hzero
  obtain ⟨hrounds, hcoarser⟩ := shortest_spec hd
  refine hcoarser ((Decimal.shortest m q narrow).coefficient / 10) _ (lt_add_one _) ?_
  convert hrounds using 1
  rw [Decimal.value, zpow_add_one₀ (by norm_num), Nat.cast_div (Nat.dvd_of_mod_eq_zero hzero) (by norm_num)]
  push_cast
  ring

/-- No decimal that rounds to the double has fewer digits. -/
theorem shortest_digits_le (hd : IsDouble m q narrow) (d : Decimal) (hrounds : RoundsTo m q narrow d.value) :
    (Decimal.shortest m q narrow).digits.length ≤ d.digits.length := by
  obtain ⟨hshortest, hcoarser⟩ := shortest_spec hd
  generalize Decimal.shortest m q narrow = s at hshortest hcoarser ⊢
  by_contra hfewer
  have hexponent : d.exponent ≤ s.exponent := not_lt.mp fun hlt => hcoarser _ _ hlt hrounds
  obtain ⟨k, hk⟩ : ∃ k, s.digits.length = k + 1 := ⟨s.digits.length - 1, by
    have : 0 < s.digits.length := Nat.length_toDigits_pos
    omega⟩
  have hk0 : 0 < k := by
    have : 0 < d.digits.length := Nat.length_toDigits_pos
    omega
  -- the power of ten with as many digits as the shortest decimal lies between the two
  have hlow : d.value ≤ 1 * 10 ^ (k + s.exponent) := by
    have hcoefficient : d.coefficient < 10 ^ k :=
      (Nat.length_toDigits_le_iff (by norm_num) hk0).mp (by unfold Decimal.digits at hk hfewer; omega)
    rw [one_mul, zpow_add₀ (by norm_num), zpow_natCast]
    refine mul_le_mul ?_ (zpow_le_zpow_right₀ (by norm_num) hexponent) (ten_zpow_pos _).le (by positivity)
    exact_mod_cast hcoefficient.le
  have hhigh : 1 * 10 ^ (k + s.exponent) ≤ s.value := by
    have hcoefficient : 10 ^ k ≤ s.coefficient := by
      by_contra hlt
      have := (Nat.length_toDigits_le_iff (by norm_num) hk0).mpr (not_le.mp hlt)
      unfold Decimal.digits at hk
      omega
    rw [one_mul, zpow_add₀ (by norm_num), zpow_natCast]
    refine mul_le_mul_of_nonneg_right ?_ (ten_zpow_pos _).le
    exact_mod_cast hcoefficient
  exact hcoarser 1 (k + s.exponent) (by omega) (by exact_mod_cast hrounds.between hshortest hlow hhigh)

end

end LoxLang
