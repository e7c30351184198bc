import CodeAtlas.Number.Shortest
import CodeAtlas.Proofs.Number.Rounding

/-!
The shortest decimal of a number reads back as the number.

Seventeen digits always suffice: a decimal of seventeen digits lies within half a unit of the
number, so the search of `Decimal.shortest` cannot fail (`exists_reads`). Dropping zeros at the end
of the digits does not change the value. `shortest_reads` is what the text of a number relies on.
-/

namespace CodeAtlas

open CodeAtlas.Binary64

/-! ### The range of numbers -/

namespace Binary64

/-- Numbers that are cut off by their size are out of range. -/
theorem two_pow_le_ten_pow : (2 : ℚ) ^ (1075 : Int) ≤ 10 ^ (330 : Int) := by
  have bound : (2 : Nat) ^ 1075 ≤ 10 ^ 330 := by decide +kernel
  exact_mod_cast bound

/-- Whatever lies within half a unit of a positive number in normal form is read as that number. -/
theorem ofValue_eq_finite (negative : Bool) {m : Nat} {e : Int}
    (normal : IsNormal m e) (pos : 0 < m) {y : ℚ} (low : (m : ℚ) - 1 / 2 < y / 2 ^ e)
    (high : y / 2 ^ e < m + 1 / 2) (narrow : m = 2 ^ 52 → (m : ℚ) - 1 / 4 < y / 2 ^ e) :
    ofValue negative y = finite negative m e := by
  have one : (1 : ℚ) ≤ m := by exact_mod_cast pos
  have small : (m : ℚ) + 1 ≤ 2 ^ 53 := by exact_mod_cast normal.lt
  have above : (2 : ℚ) ^ (-1075 : Int) < y := by
    have half : 2⁻¹ * (2 : ℚ) ^ e < y := (lt_div_iff₀ (two_zpow_pos e)).mp (by linarith)
    refine lt_of_le_of_lt ?_ half
    rw [show (-1075 : Int) = -1 + -1074 by norm_num, zpow_add₀ two_ne_zero, zpow_neg_one]
    exact mul_le_mul_of_nonneg_left (zpow_le_zpow_right₀ (by norm_num) normal.least) (by norm_num)
  have below : y < (2 : ℚ) ^ (1024 : Int) := by
    have bound : y < 2 ^ (53 : Int) * 2 ^ e :=
      (div_lt_iff₀ (two_zpow_pos e)).mp (by push_cast; linarith)
    refine lt_of_lt_of_le bound ?_
    rw [show (1024 : Int) = 53 + 971 by norm_num, zpow_add₀ two_ne_zero]
    exact mul_le_mul_of_nonneg_left (zpow_le_zpow_right₀ (by norm_num) normal.greatest)
      (by positivity)
  have positive : 0 < y := lt_trans (two_zpow_pos _) above
  have notTiny : -330 ≤ Int.log 10 y := by
    apply (Int.zpow_le_iff_le_log (by decide) positive).mp
    refine le_trans ?_ above.le
    rw [Nat.cast_ofNat, zpow_neg, zpow_neg]
    exact inv_anti₀ (two_zpow_pos _) two_pow_le_ten_pow
  have notHuge : Int.log 10 y < 330 := by
    apply (Int.lt_zpow_iff_log_lt (by decide) positive).mp
    rw [Nat.cast_ofNat]
    calc y < (2 : ℚ) ^ (1024 : Int) := below
      _ ≤ 2 ^ (1075 : Int) := zpow_le_zpow_right₀ (by norm_num) (by norm_num)
      _ ≤ 10 ^ (330 : Int) := two_pow_le_ten_pow
  rw [ofValue, if_neg (by omega), if_neg (by omega),
    nearest_eq_finite negative normal positive low high narrow]

theorem neg_infinite (negative : Bool) : (infinite negative).neg = infinite (!negative) := rfl

theorem neg_finite (negative : Bool) (m : Nat) (e : Int) :
    (finite negative m e).neg = finite (!negative) m e := rfl

theorem ofDecimal_neg (digits : Nat) (exponent : Int) :
    ofDecimal true digits exponent = (ofDecimal false digits exponent).neg := by
  have rounded : ∀ m e, ofRounded true m e = (ofRounded false m e).neg := by
    intro m e
    simp only [ofRounded, apply_ite neg, neg_finite, neg_infinite, Bool.not_false]
  have ratio : ∀ n d, ofRatio true n d = (ofRatio false n d).neg := by
    intro n d
    simp only [ofRatio, rounded, apply_ite neg, neg_finite, Bool.not_false]
  simp only [ofDecimal, ratio, apply_ite neg, neg_finite, neg_infinite, Bool.not_false]

end Binary64

namespace Decimal

variable {d m : Nat} {e : Int}

/-! ### The candidates -/

/-- The zeros behind the point are counted to their end, if the fuel lasts. -/
theorem le_mul_leadingZeros (fuel n d : Nat) (enough : d ≤ n * 10 ^ fuel) :
    d ≤ n * 10 ^ leadingZeros fuel n d := by
  induction fuel generalizing n with
  | zero => exact enough
  | succ fuel ih =>
    rw [leadingZeros]
    split
    · rename_i atMost
      simpa using atMost
    · have step := ih (n * 10) (by rw [pow_succ] at enough; linarith)
      rw [pow_succ]
      linarith

/-- The place of the point is that of the first digit or one below. -/
theorem zpow_pointPlace_le {n : Nat} (hd : 0 < d) (enough : d ≤ n * 10 ^ 400) :
    (10 : ℚ) ^ (pointPlace n d - 1) ≤ n / d := by
  have hd' : (0 : ℚ) < d := by exact_mod_cast hd
  rw [le_div_iff₀ hd', pointPlace]
  split
  · rename_i whole
    have nonzero : n / d ≠ 0 := (Nat.div_pos whole hd).ne'
    have count : 0 < digitCount (n / d) := Nat.length_toDigits_pos
    have low := (digitCount_bounds nonzero).1
    have bound : 10 ^ (digitCount (n / d) - 1) * d ≤ n :=
      le_trans (Nat.mul_le_mul_right d low) (Nat.div_mul_le_self n d)
    rw [show (digitCount (n / d) : Int) - 1 = (digitCount (n / d) - 1 : Nat) by omega, zpow_natCast]
    exact_mod_cast bound
  · have bound := le_mul_leadingZeros 400 n d enough
    rw [show (1 : Int) - (leadingZeros 400 n d : Int) - 1 = -(leadingZeros 400 n d : Int) by ring,
      zpow_neg, zpow_natCast, inv_mul_le_iff₀ (by positivity), mul_comm]
    exact_mod_cast bound

/-- The two neighbours of a quotient on the grid of a power of ten. -/
theorem neighbours_eq (n d : Nat) (k : Int) : neighbours n d k =
    let (a, b) := shifted 10 n d k
    if 2 * (a % b) < b || (2 * (a % b) == b && (a / b) % 2 == 0) then [⟨a / b, k⟩, ⟨a / b + 1, k⟩]
    else [⟨a / b + 1, k⟩, ⟨a / b, k⟩] := rfl

/-- One of the two neighbours on a grid is at most half a step away. -/
theorem exists_close_neighbour (n : Nat) (hd : 0 < d) (k : Int) :
    ∃ x ∈ neighbours n d k, x.exponent = k ∧
      (n / d / 10 ^ k : ℚ) - 1 / 2 ≤ x.digits ∧ (x.digits : ℚ) ≤ n / d / 10 ^ k + 1 / 2 := by
  obtain ⟨positive, value⟩ := shifted_value (b := 10) (by decide) n hd k
  rw [Nat.cast_ofNat] at value
  rw [neighbours_eq, ← value]
  generalize shifted 10 n d k = quotient at positive
  obtain ⟨a, b⟩ := quotient
  have positive' : (0 : ℚ) < b := by exact_mod_cast positive
  have fraction := div_sub_natDiv a positive
  have less : ((a % b : Nat) : ℚ) / b < 1 :=
    (div_lt_one positive').mpr (by exact_mod_cast Nat.mod_lt a positive)
  have nonneg : (0 : ℚ) ≤ (a % b : Nat) / b := by positivity
  dsimp only at fraction ⊢
  split
  · rename_i down
    have small : 2 * (a % b) ≤ b := by
      simp only [Bool.or_eq_true, Bool.and_eq_true, decide_eq_true_eq, beq_iff_eq] at down
      omega
    have half : ((a % b : Nat) : ℚ) / b ≤ 1 / 2 := by
      rw [div_le_iff₀ positive']
      have : (2 * (a % b : Nat) : ℚ) ≤ b := by exact_mod_cast small
      linarith
    exact ⟨_, List.mem_cons_self, rfl, by linarith, by linarith⟩
  · rename_i up
    have large : b ≤ 2 * (a % b) := by
      simp only [Bool.or_eq_true, Bool.and_eq_true, decide_eq_true_eq, beq_iff_eq] at up
      omega
    have half : (1 : ℚ) / 2 ≤ (a % b : Nat) / b := by
      rw [le_div_iff₀ positive']
      have : (b : ℚ) ≤ 2 * (a % b : Nat) := by exact_mod_cast large
      linarith
    refine ⟨_, List.mem_cons_self, rfl, ?_, ?_⟩
    · push_cast
      linarith
    · push_cast
      linarith

/-- A decimal that is at most half a step of seventeen digits away from a number reads back as the
number. -/
theorem reads_of_close (normal : IsNormal m e) (pos : 0 < m) {p : Int} {digits : Nat}
    (place : (10 : ℚ) ^ (p - 1) ≤ m * 2 ^ e)
    (low : (m * 2 ^ e / 10 ^ (p - 17) : ℚ) - 1 / 2 ≤ digits)
    (high : (digits : ℚ) ≤ m * 2 ^ e / 10 ^ (p - 17) + 1 / 2) :
    digits ≠ 0 ∧ ofDecimal false digits (p - 17) = finite false m e := by
  have unit := two_zpow_pos e
  have step : (0 : ℚ) < 10 ^ (p - 17) := zpow_pos (by norm_num) _
  have positive : (0 : ℚ) < m := by exact_mod_cast pos
  have small : (m : ℚ) < 2 ^ 53 := by exact_mod_cast normal.lt
  -- A step is small against the number, since seventeen digits stand before the step's place.
  have fine : (10 : ℚ) ^ (p - 17) * 10 ^ 16 ≤ m * 2 ^ e := by
    rw [show p - 1 = (p - 17) + 16 by ring, zpow_add₀ (by norm_num)] at place
    exact_mod_cast place
  have many : (10 : ℚ) ^ 16 ≤ m * 2 ^ e / 10 ^ (p - 17) := by
    rw [le_div_iff₀ step, mul_comm]
    exact fine
  have nonzero : digits ≠ 0 := by
    rintro rfl
    push_cast at low
    linarith
  have stepOver : (10 : ℚ) ^ (p - 17) / 2 ^ e * 10 ^ 16 ≤ m := by
    rw [div_mul_eq_mul_div, div_le_iff₀ unit]
    exact fine
  have above : (m : ℚ) - 10 ^ (p - 17) / 2 ^ e / 2 ≤ digits * 10 ^ (p - 17) / 2 ^ e := by
    have scaled := mul_le_mul_of_nonneg_right low (div_pos step unit).le
    calc (m : ℚ) - 10 ^ (p - 17) / 2 ^ e / 2
        = (m * 2 ^ e / 10 ^ (p - 17) - 1 / 2) * (10 ^ (p - 17) / 2 ^ e) := by field_simp
      _ ≤ digits * (10 ^ (p - 17) / 2 ^ e) := scaled
      _ = digits * 10 ^ (p - 17) / 2 ^ e := by ring
  have below : (digits : ℚ) * 10 ^ (p - 17) / 2 ^ e ≤ m + 10 ^ (p - 17) / 2 ^ e / 2 := by
    have scaled := mul_le_mul_of_nonneg_right high (div_pos step unit).le
    calc (digits : ℚ) * 10 ^ (p - 17) / 2 ^ e = digits * (10 ^ (p - 17) / 2 ^ e) := by ring
      _ ≤ (m * 2 ^ e / 10 ^ (p - 17) + 1 / 2) * (10 ^ (p - 17) / 2 ^ e) := scaled
      _ = m + 10 ^ (p - 17) / 2 ^ e / 2 := by field_simp
  refine ⟨nonzero, ?_⟩
  rw [ofDecimal_eq_ofValue false nonzero]
  refine ofValue_eq_finite false normal pos ?_ ?_ ?_
  · linarith
  · linarith
  · rintro rfl
    push_cast at *
    linarith

def ratio (m : Nat) (e : Int) : Nat × Nat :=
  if 0 ≤ e then (m * Nat.pow 2 e.toNat, 1) else (m, Nat.pow 2 (-e).toNat)

/-- The quotient of a number has its value. -/
theorem ratio_value (m : Nat) (e : Int) :
    0 < (ratio m e).2 ∧ ((ratio m e).1 : ℚ) / (ratio m e).2 = m * 2 ^ e := by
  rw [ratio]
  split
  · rename_i nonneg
    obtain ⟨k, rfl⟩ := Int.eq_ofNat_of_zero_le nonneg
    simp
  · obtain ⟨k, rfl⟩ : ∃ k : Nat, e = -(k : Int) := ⟨(-e).toNat, by omega⟩
    simp [div_eq_mul_inv]

theorem two_pow_le {k : Nat} (least : k ≤ 1074) : 2 ^ k ≤ 10 ^ 400 := by
  generalize bound : 1074 = n at least
  have widest : 2 ^ n ≤ 10 ^ 400 := by
    subst bound
    decide +kernel
  exact le_trans (Nat.pow_le_pow_right (by decide) least) widest

/-- The fuel for finding the place of the point is enough for the least numbers. -/
theorem ratio_le (normal : IsNormal m e) (pos : 0 < m) :
    (ratio m e).2 ≤ (ratio m e).1 * 10 ^ 400 := by
  have least : (-e).toNat ≤ 1074 := by
    have := normal.least
    rw [minExponent] at this
    omega
  rw [ratio]
  split
  · have scale : 0 < 10 ^ 400 := Nat.lt_of_lt_of_le Nat.one_pos (two_pow_le (Nat.zero_le _))
    exact Nat.mul_pos (Nat.mul_pos pos (Nat.two_pow_pos _)) scale
  · exact le_trans (two_pow_le least) (Nat.le_mul_of_pos_left _ pos)

def Reads (m : Nat) (e : Int) (x : Decimal) : Prop :=
  x.digits ≠ 0 ∧ ofDecimal false x.digits x.exponent = finite false m e

/-- **Seventeen digits suffice.** -/
theorem exists_reads (normal : IsNormal m e) (pos : 0 < m) :
    ∃ x ∈ neighbours (ratio m e).1 (ratio m e).2 (pointPlace (ratio m e).1 (ratio m e).2 - 17),
      Reads m e x := by
  obtain ⟨positive, value⟩ := ratio_value m e
  have place := zpow_pointPlace_le positive (ratio_le normal pos)
  obtain ⟨⟨digits, k⟩, mem, rfl, low, high⟩ := exists_close_neighbour (ratio m e).1 positive
    (pointPlace (ratio m e).1 (ratio m e).2 - 17)
  rw [value] at place low high
  exact ⟨_, mem, reads_of_close normal pos place low high⟩

/-- Zeros at the end do not matter for what a decimal is read as. -/
theorem reads_stripZeros (fuel : Nat) (x : Decimal) (h : Reads m e x) :
    Reads m e (stripZeros fuel x) := by
  induction fuel generalizing x with
  | zero => exact h
  | succ fuel ih =>
    rw [stripZeros]
    split
    · rename_i zero
      apply ih
      obtain ⟨nonzero, reads⟩ := h
      simp only [Bool.and_eq_true, bne_iff_ne, ne_eq, beq_iff_eq] at zero
      have tens : x.digits = x.digits / 10 * 10 := by omega
      have shorter : x.digits / 10 ≠ 0 := by omega
      refine ⟨shorter, ?_⟩
      rw [← reads]
      apply ofDecimal_congr false shorter nonzero
      dsimp only
      rw [zpow_add_one₀ (by norm_num)]
      nth_rewrite 2 [tens]
      push_cast
      ring
    · exact h

/-- The search goes through the neighbours on finer and finer grids, and takes the first that reads
back. -/
theorem shortest_eq (m : Nat) (e : Int) : shortest m e =
    match ((List.range 17).flatMap fun (i : Nat) =>
      neighbours (ratio m e).1 (ratio m e).2
        (pointPlace (ratio m e).1 (ratio m e).2 - (i + 1))).find? fun x =>
        x.digits != 0 && ofDecimal false x.digits x.exponent == finite false m e with
    | some x => stripZeros 20 x
    | none => ⟨0, 0⟩ := rfl

/-- **The shortest decimal of a number reads back as the number**, with either sign. -/
theorem shortest_reads (negative : Bool) (normal : IsNormal m e) (pos : 0 < m) :
    (shortest m e).digits ≠ 0 ∧
      ofDecimal negative (shortest m e).digits (shortest m e).exponent = finite negative m e := by
  obtain ⟨nonzero, reads⟩ : Reads m e (shortest m e) := by
    obtain ⟨x, mem, reads⟩ := exists_reads normal pos
    let isHit (x : Decimal) : Bool :=
      x.digits != 0 && ofDecimal false x.digits x.exponent == finite false m e
    have hit_iff : ∀ x, isHit x = true ↔ Reads m e x := by
      intro x
      simp [isHit, Reads]
    let candidates := (List.range 17).flatMap fun (i : Nat) =>
      neighbours (ratio m e).1 (ratio m e).2 (pointPlace (ratio m e).1 (ratio m e).2 - (i + 1))
    have candidate : x ∈ candidates := List.mem_flatMap.mpr ⟨16, by simp, mem⟩
    cases found : candidates.find? isHit with
    | none => exact absurd ((hit_iff x).mpr reads) (List.find?_eq_none.mp found x candidate)
    | some y =>
      rw [shortest_eq, found]
      exact reads_stripZeros 20 y ((hit_iff y).mp (List.find?_some found))
  refine ⟨nonzero, ?_⟩
  cases negative with
  | false => exact reads
  | true => rw [ofDecimal_neg, reads, neg_finite, Bool.not_false]

end Decimal

end CodeAtlas
