import Mathlib
import CodeAtlas.Number.Binary64

/-!
Reading a decimal as a double-precision number depends on its value alone.

The functions that run work on numerators and denominators. Here the same rounding is stated on
rational numbers (`nearest`), and the two are proved equal:

* `ofRatio_eq_nearest`: the number nearest to a quotient is that of the rational number;
* `ofDecimal_congr`: decimals of one value are read as one number, however many zeros they carry;
* `nearest_eq_finite`: whatever lies within half a unit of a number in normal form is rounded to it.
  Below a power of two the unit is half as large.
-/

namespace CodeAtlas.Binary64

variable {d m b n digits : Nat} {y : ℚ} {k e : Int}

/-! ### Rounding to a natural number -/

def roundEven (y : ℚ) : Nat :=
  let q := ⌊y⌋₊
  if 2 * (y - q) < 1 then q
  else if 1 < 2 * (y - q) then q + 1
  else if q % 2 == 0 then q else q + 1

/-- What an integer division leaves over, as a fraction. -/
theorem div_sub_natDiv (n : Nat) (hd : 0 < d) :
    (n : ℚ) / d - (n / d : Nat) = (n % d : Nat) / d := by
  have hd' : (d : ℚ) ≠ 0 := by exact_mod_cast hd.ne'
  have whole : ((n / d : Nat) : ℚ) * d + (n % d : Nat) = n := by
    exact_mod_cast Nat.div_add_mod' n d
  rw [sub_eq_iff_eq_add, div_add' _ _ _ hd', div_left_inj' hd']
  linarith

/-- **Rounding a quotient of integers is rounding the rational number.** -/
theorem roundDiv_eq_roundEven (n : Nat) (hd : 0 < d) : roundDiv n d = roundEven ((n : ℚ) / d) := by
  have hd' : (0 : ℚ) < d := by exact_mod_cast hd
  have fraction := div_sub_natDiv n hd
  have below : 2 * ((n % d : Nat) / d : ℚ) < 1 ↔ 2 * (n % d) < d := by
    rw [← mul_div_assoc, div_lt_one hd']
    exact_mod_cast Iff.rfl
  have above : 1 < 2 * ((n % d : Nat) / d : ℚ) ↔ d < 2 * (n % d) := by
    rw [← mul_div_assoc, one_lt_div hd']
    exact_mod_cast Iff.rfl
  simp only [roundDiv, roundEven, Nat.floor_div_eq_div, fraction, below, above]

/-- A number less than a half away is the nearest one. -/
theorem roundEven_eq (low : (m : ℚ) - 1 / 2 < y) (high : y < m + 1 / 2) : roundEven y = m := by
  simp only [roundEven]
  rcases lt_or_ge y m with less | atLeast
  · cases m with
    | zero =>
      have floor : ⌊y⌋₊ = 0 := Nat.floor_of_nonpos (by exact_mod_cast less.le)
      rw [floor, if_pos (by push_cast at *; linarith)]
    | succ m =>
      -- The value is in the upper half of the interval below `m + 1`.
      push_cast at low less
      have floor : ⌊y⌋₊ = m := by
        have nonneg : (0 : ℚ) ≤ m := Nat.cast_nonneg m
        rw [Nat.floor_eq_iff (by linarith)]
        exact ⟨by linarith, by linarith⟩
      rw [floor, if_neg (by linarith), if_pos (by linarith)]
  · have floor : ⌊y⌋₊ = m := by
      rw [Nat.floor_eq_iff (le_trans (Nat.cast_nonneg m) atLeast)]
      exact ⟨atLeast, by linarith⟩
    rw [floor, if_pos (by linarith)]

/-! ### Rounding to double precision -/

theorem two_zpow_pos (e : Int) : (0 : ℚ) < 2 ^ e :=
  zpow_pos (by norm_num) e

def nearest (negative : Bool) (y : ℚ) : Binary64 :=
  let e := max (Int.log 2 y - 52) minExponent
  ofRounded negative (roundEven (y / 2 ^ e)) e

/-- A quotient over a power of `b`. -/
def shifted (b n d : Nat) (e : Int) : Nat × Nat :=
  if 0 ≤ e then (n, d * Nat.pow b e.toNat) else (n * Nat.pow b (-e).toNat, d)

/-- The quotient over a power has the value that it says. -/
theorem shifted_value {b : Nat} (hb : 0 < b) (n : Nat) (hd : 0 < d) (e : Int) :
    0 < (shifted b n d e).2 ∧ ((shifted b n d e).1 : ℚ) / (shifted b n d e).2 = n / d / b ^ e := by
  rw [shifted]
  split
  · rename_i nonneg
    obtain ⟨k, rfl⟩ := Int.eq_ofNat_of_zero_le nonneg
    refine ⟨Nat.mul_pos hd (Nat.pow_pos hb), ?_⟩
    simp [div_div]
  · obtain ⟨k, rfl⟩ : ∃ k : Nat, e = -(k : Int) := ⟨(-e).toNat, by omega⟩
    refine ⟨hd, ?_⟩
    simp [div_inv_eq_mul, mul_div_right_comm]

theorem scaled_value (n : Nat) (hd : 0 < d) (e : Int) :
    0 < (scaled n d e).2 ∧ ((scaled n d e).1 : ℚ) / (scaled n d e).2 = n / d / 2 ^ e :=
  shifted_value Nat.two_pos n hd e

/-- The place of the first digit of a positive number. -/
theorem log_eq_of_bounds (hb : 1 < b) (low : (b : ℚ) ^ k ≤ y) (high : y < (b : ℚ) ^ (k + 1)) :
    Int.log b y = k := by
  have base : (0 : ℚ) < b := by exact_mod_cast Nat.zero_lt_of_lt hb
  have pos : 0 < y := lt_of_lt_of_le (zpow_pos base k) low
  have atLeast : k ≤ Int.log b y := (Int.zpow_le_iff_le_log hb pos).mp low
  have atMost : Int.log b y < k + 1 := (Int.lt_zpow_iff_log_lt hb pos).mp high
  omega

theorem log_two_eq (low : (2 : ℚ) ^ k ≤ y) (high : y < 2 ^ (k + 1)) : Int.log 2 y = k :=
  log_eq_of_bounds Nat.one_lt_two (by exact_mod_cast low) (by exact_mod_cast high)

/-- The quotient of two numbers has its first binary digit where their own first digits say, or one
place lower. -/
theorem ratio_bounds (hn : n ≠ 0) (hd : d ≠ 0) :
    (2 : ℚ) ^ ((Nat.log2 n : Int) - Nat.log2 d - 1) < n / d ∧
      (n : ℚ) / d < 2 ^ ((Nat.log2 n : Int) - Nat.log2 d + 1) := by
  have hd' : (0 : ℚ) < d := by exact_mod_cast Nat.pos_of_ne_zero hd
  have n_low : (2 : ℚ) ^ Nat.log2 n ≤ n := by exact_mod_cast Nat.log2_self_le hn
  have n_high : (n : ℚ) < 2 ^ (Nat.log2 n + 1) := by exact_mod_cast Nat.lt_log2_self
  have d_low : (2 : ℚ) ^ Nat.log2 d ≤ d := by exact_mod_cast Nat.log2_self_le hd
  have d_high : (d : ℚ) < 2 ^ (Nat.log2 d + 1) := by exact_mod_cast Nat.lt_log2_self
  constructor
  · rw [lt_div_iff₀ hd', sub_sub, zpow_sub₀ two_ne_zero, div_mul_eq_mul_div,
      div_lt_iff₀ (two_zpow_pos _)]
    have step : (2 : ℚ) ^ Nat.log2 n * d < n * 2 ^ (Nat.log2 d + 1) :=
      mul_lt_mul_of_nonneg_of_pos' n_low d_high (by positivity) (by positivity)
    exact_mod_cast step
  · rw [div_lt_iff₀ hd', sub_add_eq_add_sub, zpow_sub₀ two_ne_zero, div_mul_eq_mul_div,
      lt_div_iff₀ (two_zpow_pos _)]
    have step : (n : ℚ) * 2 ^ Nat.log2 d < 2 ^ (Nat.log2 n + 1) * d :=
      mul_lt_mul n_high d_low (by positivity) (by positivity)
    exact_mod_cast step

/-- The exponent that is computed from the lengths of two numbers is that of their quotient. -/
theorem ratioExponent_eq_log (hn : n ≠ 0) (hd : 0 < d) :
    ratioExponent n d = max (Int.log 2 ((n : ℚ) / d) - 52) minExponent := by
  obtain ⟨above, below⟩ := ratio_bounds hn hd.ne'
  rw [ratioExponent]
  generalize hlow : (Nat.log2 n : Int) - Nat.log2 d - 53 = low
  obtain ⟨positive, value⟩ := scaled_value n hd low
  generalize scaled n d low = quotient at positive value
  have positive' : (0 : ℚ) < quotient.2 := by exact_mod_cast positive
  have cross : quotient.1 < quotient.2 * Nat.pow 2 53 ↔
      (quotient.1 : ℚ) / quotient.2 < 2 ^ (53 : Int) := by
    rw [div_lt_iff₀ positive', mul_comm]
    exact_mod_cast Iff.rfl
  have less : quotient.1 < quotient.2 * Nat.pow 2 53 ↔ (n : ℚ) / d < 2 ^ (low + 53) := by
    rw [cross, value, div_lt_iff₀ (two_zpow_pos low), ← zpow_add₀ two_ne_zero, add_comm]
  congr 1
  split
  · rename_i small
    rw [log_two_eq (k := low + 52)]
    · ring
    · exact le_trans (le_of_eq (congrArg _ (by omega))) above.le
    · exact lt_of_lt_of_le (less.mp small) (le_of_eq (congrArg _ (by omega)))
  · rename_i large
    rw [log_two_eq (k := low + 53)]
    · ring
    · exact not_lt.mp fun small => large (less.mpr small)
    · exact lt_of_lt_of_le below (le_of_eq (congrArg _ (by omega)))

/-- **The number nearest to a quotient depends on its value alone.** -/
theorem ofRatio_eq_nearest (negative : Bool) (hn : n ≠ 0) (hd : 0 < d) :
    ofRatio negative n d = nearest negative (n / d) := by
  obtain ⟨positive, value⟩ := scaled_value n hd (ratioExponent n d)
  rw [ofRatio, if_neg (by simpa using hn), nearest, ← ratioExponent_eq_log hn hd, ← value,
    ← roundDiv_eq_roundEven _ positive]

/-! ### Numbers in normal form -/

/-- The mantissa and the exponent of a finite number: the mantissa has all its digits unless the
exponent is the least one. -/
structure IsNormal (m : Nat) (e : Int) : Prop where
  lt : m < 2 ^ 53
  least : minExponent ≤ e
  greatest : e ≤ maxExponent
  full : 2 ^ 52 ≤ m ∨ e = minExponent

/-- A finite number in normal form, as all numbers are that are read or computed. -/
def IsFinite : Binary64 → Prop
  | finite _ m e => IsNormal m e
  | _ => False

/-- A number in normal form is kept as it is. -/
theorem IsNormal.ofRounded (normal : IsNormal m e) (negative : Bool) :
    ofRounded negative m e = finite negative m e := by
  have noCarry : m ≠ Nat.pow 2 53 := Nat.ne_of_lt normal.lt
  rw [Binary64.ofRounded, if_neg (by simpa using noCarry), if_neg (Int.not_lt.mpr normal.greatest)]

/-- Just below a power of two the exponent is one less, and rounding carries. -/
theorem nearest_eq_carry (negative : Bool) (least : minExponent < e) (greatest : e ≤ maxExponent)
    (low : 2 ^ 52 - 1 / 4 < y / 2 ^ e) (high : y / 2 ^ e < 2 ^ 52) :
    nearest negative y = finite negative (2 ^ 52) e := by
  have log : Int.log 2 y = 51 + e := by
    apply log_two_eq
    · have above : (2 : ℚ) ^ 51 * 2 ^ e ≤ y := (le_div_iff₀ (two_zpow_pos e)).mp (by linarith)
      rw [zpow_add₀ two_ne_zero]
      exact_mod_cast above
    · have below : y < 2 ^ 52 * 2 ^ e := (div_lt_iff₀ (two_zpow_pos e)).mp high
      rw [show 51 + e + 1 = 52 + e by ring, zpow_add₀ two_ne_zero]
      exact_mod_cast below
  have exponent : max (Int.log 2 y - 52) minExponent = e - 1 := by omega
  have doubled : y / 2 ^ (e - 1) = 2 * (y / 2 ^ e) := by
    rw [zpow_sub_one₀ two_ne_zero]
    field_simp
  have rounded : roundEven (y / 2 ^ (e - 1)) = 2 ^ 53 := by
    rw [doubled]
    apply roundEven_eq
    · push_cast
      linarith
    · push_cast
      linarith
  rw [nearest, exponent, rounded, Binary64.ofRounded, if_pos (by rfl), sub_add_cancel,
    if_neg (Int.not_lt.mpr greatest)]
  rfl

/-- **Whatever lies within half a unit of a number is rounded to it.** Below a power of two the unit
is half as large, unless the exponent is the least one. -/
theorem nearest_eq_finite (negative : Bool) (normal : IsNormal m e)
    (pos : 0 < y) (low : (m : ℚ) - 1 / 2 < y / 2 ^ e) (high : y / 2 ^ e < m + 1 / 2)
    (narrow : m = 2 ^ 52 → (m : ℚ) - 1 / 4 < y / 2 ^ e) :
    nearest negative y = finite negative m e := by
  have small : (m : ℚ) + 1 ≤ 2 ^ 53 := by exact_mod_cast normal.lt
  have fits := normal.ofRounded negative
  rcases lt_or_ge (y / 2 ^ e) (2 ^ 52) with below | above
  · by_cases least : e = minExponent
    · have shorter : Int.log 2 y < 52 + e := by
        have below' : y < 2 ^ 52 * 2 ^ e := (div_lt_iff₀ (two_zpow_pos e)).mp below
        apply (Int.lt_zpow_iff_log_lt Nat.one_lt_two pos).mp
        push_cast
        rw [zpow_add₀ two_ne_zero]
        exact_mod_cast below'
      have exponent : max (Int.log 2 y - 52) minExponent = e := by omega
      rw [nearest, exponent, roundEven_eq low high, fits]
    · have atLeast : 2 ^ 52 ≤ m := normal.full.resolve_right least
      have atMost : m < 2 ^ 52 + 1 := by
        have : (m : ℚ) < 2 ^ 52 + 1 := by linarith
        exact_mod_cast this
      obtain rfl : m = 2 ^ 52 := by omega
      have above := narrow rfl
      push_cast at above
      exact nearest_eq_carry negative (lt_of_le_of_ne normal.least (Ne.symm least))
        normal.greatest above below
  · have log : Int.log 2 y = 52 + e := by
      apply log_two_eq
      · rw [le_div_iff₀ (two_zpow_pos e)] at above
        rw [zpow_add₀ two_ne_zero]
        exact_mod_cast above
      · have under : y < 2 ^ 53 * 2 ^ e := (div_lt_iff₀ (two_zpow_pos e)).mp (by linarith)
        rw [show 52 + e + 1 = 53 + e by ring, zpow_add₀ two_ne_zero]
        exact_mod_cast under
    have exponent : max (Int.log 2 y - 52) minExponent = e := by
      have := normal.least
      omega
    rw [nearest, exponent, roundEven_eq low high, fits]

/-! ### Decimals -/

/-- A number has as many digits as its size says. -/
theorem digitCount_bounds (hn : n ≠ 0) : 10 ^ (digitCount n - 1) ≤ n ∧ n < 10 ^ digitCount n := by
  have pos : 0 < digitCount n := Nat.length_toDigits_pos
  refine ⟨?_, (Nat.length_toDigits_le_iff (by decide) pos).mp (Nat.le_refl _)⟩
  rcases Nat.eq_zero_or_pos (digitCount n - 1) with one | more
  · rw [one]
    exact Nat.pos_of_ne_zero hn
  · by_contra less
    have short := (Nat.length_toDigits_le_iff (by decide) more).mpr (Nat.lt_of_not_le less)
    change digitCount n ≤ digitCount n - 1 at short
    omega

/-- The place of the first digit of a decimal. -/
theorem log_decimal (hd : digits ≠ 0) (exponent : Int) :
    Int.log 10 ((digits : ℚ) * 10 ^ exponent) + 1 = digitCount digits + exponent := by
  obtain ⟨low, high⟩ := digitCount_bounds hd
  have pos : 0 < digitCount digits := Nat.length_toDigits_pos
  have scale : (0 : ℚ) < 10 ^ exponent := zpow_pos (by norm_num) exponent
  have low' : ((10 : Nat) : ℚ) ^ ((digitCount digits : Int) - 1 + exponent) ≤
      digits * 10 ^ exponent := by
    rw [zpow_add₀ (by norm_num),
      show (digitCount digits : Int) - 1 = (digitCount digits - 1 : Nat) by omega,
      zpow_natCast]
    exact mul_le_mul_of_nonneg_right (by exact_mod_cast low) scale.le
  have high' : (digits : ℚ) * 10 ^ exponent < ((10 : Nat) : ℚ) ^
      ((digitCount digits : Int) - 1 + exponent + 1) := by
    rw [show (digitCount digits : Int) - 1 + exponent + 1 = digitCount digits + exponent by ring,
      zpow_add₀ (by norm_num), zpow_natCast]
    exact mul_lt_mul_of_pos_right (by exact_mod_cast high) scale
  rw [log_eq_of_bounds (by decide) low' high']
  ring

/-- The number nearest to `± v` for a positive rational `v`. Values far outside the range are
settled by their size. -/
def ofValue (negative : Bool) (v : ℚ) : Binary64 :=
  let size := Int.log 10 v + 1
  if size < -330 then finite negative 0 minExponent
  else if 330 < size then infinite negative
  else nearest negative v

/-- **A decimal is read by its value**, also where that is far out of range. -/
theorem ofDecimal_eq_ofValue (negative : Bool) (hd : digits ≠ 0) (exponent : Int) :
    ofDecimal negative digits exponent = ofValue negative (digits * 10 ^ exponent) := by
  rw [ofDecimal, ofValue, log_decimal hd]
  have nonzero : (digits == 0) = false := by simpa using hd
  simp only [nonzero, Bool.false_or, decide_eq_true_eq]
  congr 2
  split
  · rename_i nonneg
    obtain ⟨k, rfl⟩ := Int.eq_ofNat_of_zero_le nonneg
    rw [ofRatio_eq_nearest _ (by simp [hd]) Nat.one_pos]
    simp
  · rename_i negative'
    obtain ⟨k, rfl⟩ : ∃ k : Nat, exponent = -(k : Int) := ⟨(-exponent).toNat, by omega⟩
    rw [ofRatio_eq_nearest _ hd (by simp)]
    simp [div_eq_mul_inv]

/-- **Decimals of one value are read as one number.** -/
theorem ofDecimal_congr (negative : Bool) {a : Nat} {i j : Int} (ha : a ≠ 0) (hb : b ≠ 0)
    (same : (a : ℚ) * 10 ^ i = b * 10 ^ j) : ofDecimal negative a i = ofDecimal negative b j := by
  rw [ofDecimal_eq_ofValue negative ha, ofDecimal_eq_ofValue negative hb, same]

end CodeAtlas.Binary64
