import Mathlib.Algebra.Order.Field.Power
import Mathlib.Data.Int.Log
import Mathlib.Data.Rat.Floor
import Mathlib.Tactic.FieldSimp
import Mathlib.Tactic.Positivity
import Mathlib.Tactic.Ring
import SchemaCompiler.Number.Binary64

/-!
# Rounding to doubles

What `Magnitude.nearest` makes of a fraction depends on its value only (`nearest_congr`), is a
canonical double (`nearest_canonical`), and is the value itself if that is a canonical double
(`nearest_self`).
-/

namespace SchemaCompiler

/-! ## Fractions -/

theorem roundHalfEven_mul {c : Nat} (hc : 0 < c) (n d : Nat) :
    roundHalfEven (n * c) (d * c) = roundHalfEven n d := by
  have scale (a b : Nat) : a * c < b * c ↔ a < b := Nat.mul_lt_mul_right hc
  have twice : 2 * (n % d * c) = 2 * (n % d) * c := (Nat.mul_assoc ..).symm
  simp only [roundHalfEven, Nat.mul_div_mul_right _ _ hc, Nat.mul_mod_mul_right, twice, scale]

theorem roundHalfEven_exact (m : Nat) {d : Nat} (hd : 0 < d) : roundHalfEven (m * d) d = m := by
  simp [roundHalfEven, Nat.mul_div_cancel m hd, hd]

theorem le_roundHalfEven {a n d : Nat} (hd : 0 < d) (h : a * d ≤ n) : a ≤ roundHalfEven n d := by
  have quotient : a ≤ n / d := (Nat.le_div_iff_mul_le hd).2 h
  simp only [roundHalfEven]
  split_ifs <;> omega

theorem roundHalfEven_le {b n d : Nat} (hd : 0 < d) (h : n < b * d) : roundHalfEven n d ≤ b := by
  have quotient : n / d < b := (Nat.div_lt_iff_lt_mul hd).2 h
  simp only [roundHalfEven]
  split_ifs <;> omega

namespace Magnitude

/-- The mantissa and the exponent that a double has as such: 53 significant bits, or fewer at the
least exponent. -/
def Canonical (x : Magnitude) : Prop :=
  x.mantissa < 2 ^ 53 ∧ leastExponent ≤ x.exponent ∧ x.exponent ≤ greatestExponent ∧
    (2 ^ 52 ≤ x.mantissa ∨ x.exponent = leastExponent)

instance (x : Magnitude) : Decidable x.Canonical := inferInstanceAs (Decidable (_ ∧ _))

theorem scaledDenominator_pos {d : Nat} (hd : 0 < d) (e : Int) : 0 < scaledDenominator d e :=
  Nat.mul_pos hd (Nat.pow_pos (by decide))

/-- A fraction scaled by a power of two. -/
theorem scaled_eq (n d : Nat) (e : Int) :
    (scaledNumerator n e : ℚ) / scaledDenominator d e = n / d * 2 ^ e := by
  obtain ⟨k, rfl | rfl⟩ := e.eq_nat_or_neg
  · simp [scaledNumerator, scaledDenominator]
    ring
  · simp [scaledNumerator, scaledDenominator]
    field_simp

/-! ## Exponents -/

theorem log_eq {q : ℚ} {l : Int} (lower : (2 : ℚ) ^ l ≤ q) (upper : q < 2 ^ (l + 1)) :
    Int.log 2 q = l := by
  have positive : 0 < q := lt_of_lt_of_le (by positivity) lower
  have least : l ≤ Int.log 2 q :=
    (Int.zpow_le_iff_le_log (by decide) positive).1 (by simpa using lower)
  have greatest : Int.log 2 q < l + 1 :=
    (Int.lt_zpow_iff_log_lt (by decide) positive).1 (by simpa using upper)
  omega

theorem log2_bounds {n : Nat} (hn : 0 < n) :
    (2 : ℚ) ^ (n.log2 : Int) ≤ n ∧ (n : ℚ) < 2 ^ (n.log2 + 1 : Int) := by
  have lower : 2 ^ n.log2 ≤ n := Nat.log2_self_le hn.ne'
  have upper : n < 2 ^ (n.log2 + 1) := Nat.lt_log2_self
  constructor
  · rw [zpow_natCast]
    exact_mod_cast lower
  · rw [← Nat.cast_succ, zpow_natCast]
    exact_mod_cast upper

/-- The exponent is the one of the leading bit, 52 bits down, if that is not too low. -/
theorem exponentFor_eq {n d : Nat} (hn : 0 < n) (hd : 0 < d) :
    exponentFor n d = max (Int.log 2 (n / d : ℚ) - 52) leastExponent := by
  have hd' : (0 : ℚ) < d := by exact_mod_cast hd
  obtain ⟨lowerN, upperN⟩ := log2_bounds hn
  obtain ⟨lowerD, upperD⟩ := log2_bounds hd
  generalize estimate_eq : (n.log2 : Int) - d.log2 = estimate
  have below : scaledDenominator 1 estimate * n < scaledNumerator d estimate ↔
      (n / d : ℚ) < 2 ^ estimate := by
    have scaled := scaled_eq d 1 estimate
    have positive : (0 : ℚ) < scaledDenominator 1 estimate := by
      exact_mod_cast scaledDenominator_pos one_pos estimate
    rw [Nat.cast_one, div_one, div_eq_iff positive.ne'] at scaled
    rw [← Nat.cast_lt (α := ℚ), Nat.cast_mul, scaled, mul_comm, mul_lt_mul_iff_left₀ positive,
      div_lt_iff₀ hd', mul_comm]
  have upper : (n / d : ℚ) < 2 ^ (estimate + 1) := by
    rw [div_lt_iff₀ hd']
    calc (n : ℚ) < 2 ^ (n.log2 + 1 : Int) := upperN
      _ = 2 ^ (estimate + 1) * 2 ^ (d.log2 : Int) := by
        rw [← zpow_add₀ two_ne_zero, ← estimate_eq]
        congr 1
        ring
      _ ≤ 2 ^ (estimate + 1) * d := by gcongr
  have lower : (2 : ℚ) ^ (estimate - 1) ≤ n / d := by
    rw [le_div_iff₀ hd']
    calc (2 : ℚ) ^ (estimate - 1) * d ≤ 2 ^ (estimate - 1) * 2 ^ (d.log2 + 1 : Int) := by gcongr
      _ = 2 ^ (n.log2 : Int) := by
        rw [← zpow_add₀ two_ne_zero, ← estimate_eq]
        congr 1
        ring
      _ ≤ n := lowerN
  rw [exponentFor, estimate_eq]
  congr 2
  split
  next h => rw [log_eq lower (by simpa using below.1 h)]
  next h => rw [log_eq (not_lt.1 fun lt => h (below.2 lt)) upper]

/-! ## Rounding -/

/-- The double nearest to a fraction is that of the fraction with a common factor. -/
theorem nearest_mul {c : Nat} (hc : 0 < c) (n : Nat) {d : Nat} (hd : 0 < d) :
    nearest (n * c) (d * c) = nearest n d := by
  by_cases zero : n = 0
  · rw [zero, Nat.zero_mul]
    rfl
  have hn : 0 < n := Nat.pos_of_ne_zero zero
  have exponent : exponentFor (n * c) (d * c) = exponentFor n d := by
    have ratio : ((n * c : Nat) / (d * c : Nat) : ℚ) = n / d := by
      push_cast
      exact mul_div_mul_right _ _ (by exact_mod_cast hc.ne')
    rw [exponentFor_eq (Nat.mul_pos hn hc) (Nat.mul_pos hd hc), ratio, exponentFor_eq hn hd]
  have numerator (e : Int) : scaledNumerator (n * c) e = scaledNumerator n e * c :=
    Nat.mul_right_comm ..
  have denominator (e : Int) : scaledDenominator (d * c) e = scaledDenominator d e * c :=
    Nat.mul_right_comm ..
  simp only [nearest, exponent, numerator, denominator, roundHalfEven_mul hc, Nat.mul_eq_zero,
    zero, hc.ne', or_self]

/-- The double nearest to a fraction depends on its value only. -/
theorem nearest_congr {n d n' d' : Nat} (hd : 0 < d) (hd' : 0 < d')
    (h : (n / d : ℚ) = n' / d') : nearest n d = nearest n' d' := by
  rw [div_eq_div_iff (by exact_mod_cast hd.ne') (by exact_mod_cast hd'.ne')] at h
  have cross : n * d' = n' * d := by exact_mod_cast h
  rw [← nearest_mul hd' n hd, cross, Nat.mul_comm d d', nearest_mul hd n' hd']

/-- At the exponent of a fraction, it has 53 bits before the point, or fewer at the least one. -/
theorem scaled_bounds {n d : Nat} (hn : 0 < n) (hd : 0 < d) :
    scaledNumerator n (-exponentFor n d) < 2 ^ 53 * scaledDenominator d (-exponentFor n d) ∧
      (leastExponent < exponentFor n d →
        2 ^ 52 * scaledDenominator d (-exponentFor n d) ≤
          scaledNumerator n (-exponentFor n d)) := by
  have ratio : (0 : ℚ) < n / d := by positivity
  have exponent := exponentFor_eq hn hd
  have lower := Int.zpow_log_le_self (b := 2) (by decide) ratio
  have upper := Int.lt_zpow_succ_log_self (b := 2) (by decide) (n / d : ℚ)
  generalize exponentFor n d = e at exponent
  have scaled := scaled_eq n d (-e)
  have positive : (0 : ℚ) < scaledDenominator d (-e) := by
    exact_mod_cast scaledDenominator_pos hd (-e)
  rw [div_eq_iff positive.ne'] at scaled
  push_cast at lower upper
  constructor
  · have bound : (n / d : ℚ) * 2 ^ (-e) < 2 ^ 53 := by
      calc (n / d : ℚ) * 2 ^ (-e) < 2 ^ (Int.log 2 (n / d : ℚ) + 1) * 2 ^ (-e) := by gcongr
        _ = 2 ^ (Int.log 2 (n / d : ℚ) + 1 + -e) := (zpow_add₀ two_ne_zero _ _).symm
        _ ≤ 2 ^ (53 : Int) := zpow_le_zpow_right₀ one_le_two (by omega)
        _ = 2 ^ 53 := by norm_cast
    have cast : (scaledNumerator n (-e) : ℚ) < 2 ^ 53 * scaledDenominator d (-e) := by
      rw [scaled]
      gcongr
    exact_mod_cast cast
  · intro above
    have bound : (2 : ℚ) ^ 52 ≤ n / d * 2 ^ (-e) := by
      calc (2 : ℚ) ^ 52 = 2 ^ (52 : Int) := by norm_cast
        _ = 2 ^ (Int.log 2 (n / d : ℚ)) * 2 ^ (-e) := by
          rw [← zpow_add₀ two_ne_zero]
          congr 1
          omega
        _ ≤ n / d * 2 ^ (-e) := by gcongr
    have cast : (2 : ℚ) ^ 52 * scaledDenominator d (-e) ≤ scaledNumerator n (-e) := by
      rw [scaled]
      gcongr
    exact_mod_cast cast

/-- The nearest double is a canonical one. -/
theorem nearest_canonical {n d : Nat} (hd : 0 < d) {x : Magnitude} (h : nearest n d = some x) :
    x.Canonical := by
  by_cases zero : n = 0
  · rw [nearest, if_pos zero] at h
    obtain rfl := Option.some.inj h
    decide
  have hn : 0 < n := Nat.pos_of_ne_zero zero
  obtain ⟨upper, lower⟩ := scaled_bounds hn hd
  have positive := scaledDenominator_pos hd (-exponentFor n d)
  have least : leastExponent ≤ exponentFor n d := by
    rw [exponentFor_eq hn hd]
    exact le_max_right _ _
  have atMost := roundHalfEven_le positive upper
  have atLeast := fun above => le_roundHalfEven positive (lower above)
  rw [nearest, if_neg zero] at h
  dsimp only at h
  generalize roundHalfEven _ _ = m at h atMost atLeast
  generalize exponentFor n d = e at h least atLeast
  rw [Option.ite_none_left_eq_some] at h
  obtain ⟨notAbove, h⟩ := h
  obtain rfl := Option.some.inj h
  have half : (2 : Nat) ^ 52 < 2 ^ 53 := by decide
  split_ifs at notAbove ⊢ with full none
  · exact ⟨half, le_trans least (Int.le_add_one le_rfl), not_lt.1 notAbove, .inl le_rfl⟩
  · exact ⟨by decide, le_rfl, by decide, .inr rfl⟩
  · refine ⟨lt_of_le_of_ne atMost full, least, not_lt.1 notAbove, ?_⟩
    obtain above | same := least.lt_or_eq
    · exact .inl (atLeast above)
    · exact .inr same.symm

/-! ## Doubles as fractions -/

/-- The value of a double, without its sign. -/
def value (x : Magnitude) : ℚ := x.mantissa * 2 ^ x.exponent

theorem denominator_pos (x : Magnitude) : 0 < x.denominator := scaledDenominator_pos one_pos _

theorem value_eq (x : Magnitude) : x.value = x.numerator / x.denominator := by
  rw [numerator, denominator, scaled_eq, Nat.cast_one, div_one, value]

theorem numerator_pos {x : Magnitude} (nonzero : x.mantissa ≠ 0) : 0 < x.numerator :=
  Nat.mul_pos (Nat.pos_of_ne_zero nonzero) (Nat.pow_pos (by decide))

/-- The exponent of a canonical double is that of its value. -/
theorem exponentFor_canonical {x : Magnitude} (hx : x.Canonical) (nonzero : x.mantissa ≠ 0) :
    exponentFor x.numerator x.denominator = x.exponent := by
  obtain ⟨bound, least, -, normal⟩ := hx
  have scale : (0 : ℚ) < 2 ^ x.exponent := by positivity
  have positive : 0 < x.value :=
    mul_pos (by exact_mod_cast Nat.pos_of_ne_zero nonzero) scale
  have below : Int.log 2 x.value < x.exponent + 53 := by
    refine (Int.lt_zpow_iff_log_lt (by decide) positive).1 ?_
    rw [add_comm, Nat.cast_ofNat, zpow_add₀ two_ne_zero]
    exact mul_lt_mul_of_pos_right (by exact_mod_cast bound) scale
  rw [exponentFor_eq (numerator_pos nonzero) x.denominator_pos, ← value_eq]
  obtain large | same := normal
  · have above : x.exponent + 52 ≤ Int.log 2 x.value := by
      refine (Int.zpow_le_iff_le_log (by decide) positive).1 ?_
      rw [add_comm, Nat.cast_ofNat, zpow_add₀ two_ne_zero]
      exact mul_le_mul_of_nonneg_right (by exact_mod_cast large) scale.le
    omega
  · omega

/-- The double nearest to the value of a canonical double is that double. -/
theorem nearest_self {x : Magnitude} (hx : x.Canonical) (nonzero : x.mantissa ≠ 0) :
    nearest x.numerator x.denominator = some x := by
  have positive := scaledDenominator_pos x.denominator_pos (-x.exponent)
  have scaled : scaledNumerator x.numerator (-x.exponent) =
      x.mantissa * scaledDenominator x.denominator (-x.exponent) := by
    have cast := scaled_eq x.numerator x.denominator (-x.exponent)
    rw [← value_eq, value, mul_assoc, ← zpow_add₀ two_ne_zero, add_neg_cancel, zpow_zero, mul_one,
      div_eq_iff (by exact_mod_cast positive.ne')] at cast
    exact_mod_cast cast
  have notFull : x.mantissa ≠ Nat.pow 2 53 := hx.1.ne
  rw [nearest, if_neg (numerator_pos nonzero).ne', exponentFor_canonical hx nonzero]
  simp only [scaled, roundHalfEven_exact _ positive, notFull, nonzero, if_false,
    not_lt.2 hx.2.2.1]

end Magnitude

end SchemaCompiler
