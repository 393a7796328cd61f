import Concatenative.Proofs.Rounding
import Concatenative.Proofs.Packing

/-!
# Exact arithmetic on integer words

A finite word with no fractional part holds an integer, its `truncate`, and its significand
scaled by its power of two is exactly that integer's magnitude
(`Binary64.significand_mul_zpow`). Adding, subtracting or multiplying two such words therefore
rounds an integer, and an integer below `2 ^ 53` in magnitude is rounded exactly: the result is
the word of the exact result (`Binary64.add_of_integral`, `Binary64.mul_of_integral`). A quotient
is rounded from the ratio of the two magnitudes (`Binary64.div_of_integral`). On the words of
natural numbers below `2 ^ 53`, `lt` is the order of the numbers.

## Main results

* `Binary64.add_of_integral`, `Binary64.sub_ofInt`, `Binary64.mul_of_integral` — exact integer
  sums, differences and products.
* `Binary64.div_of_integral` — a quotient of integer words is the rounded ratio of their
  magnitudes.
* `Binary64.lt_ofInt` — the order of the words of natural numbers.
-/

namespace Concatenative

namespace Binary64

-- ---------------------------------------------------------------------------
-- The integer a word holds
-- ---------------------------------------------------------------------------

theorem natAbs_truncate (x : Binary64) : x.truncate.natAbs = x.magnitudeFloor := by
  unfold truncate
  split <;> simp

/-- A word holding a non-zero integer carries that integer's sign. -/
theorem negative_of_truncate_ne_zero {x : Binary64} (h : x.truncate ≠ 0) :
    x.negative = decide (x.truncate < 0) := by
  unfold truncate at h ⊢
  cases hn : x.negative <;> simp only [hn] at h ⊢ <;> simp; omega

/-- The significand scaled by the word's power of two is the magnitude, when the word has no
fractional part. -/
theorem significand_mul_zpow {x : Binary64} (hi : x.isIntegral = true) :
    (x.significand : ℚ) * 2 ^ x.scale = x.magnitudeFloor := by
  unfold magnitudeFloor scaleDown
  by_cases hs : 0 ≤ x.scale
  · rw [if_pos hs, Nat.pow_eq, Nat.cast_mul, Nat.cast_pow, Nat.cast_ofNat, ← zpow_natCast,
      Int.toNat_of_nonneg hs]
  · -- the significand is a multiple of the power of two the scale divides by
    simp only [isIntegral, decide_eq_false hs, Bool.false_or, beq_iff_eq, Nat.pow_eq] at hi
    rw [if_neg hs, Nat.pow_eq]
    obtain ⟨c, hc⟩ := Nat.dvd_of_mod_eq_zero hi
    have hpos : 0 < 2 ^ (-x.scale).toNat := Nat.two_pow_pos _
    rw [hc, Nat.mul_div_cancel_left _ hpos, Nat.cast_mul, Nat.cast_pow, Nat.cast_ofNat,
      mul_comm, ← mul_assoc, ← zpow_natCast, Int.toNat_of_nonneg (by omega), ← zpow_add₀ two_ne_zero,
      show x.scale + -x.scale = 0 by ring, zpow_zero, one_mul]

/-- The significand moved down to the scale `e`, scaled by `2 ^ e`, is still the magnitude. -/
theorem aligned_mul_zpow {x : Binary64} (hi : x.isIntegral = true) {e : Int} (he : e ≤ x.scale) :
    (((x.significand : Int) * ((2 ^ (x.scale - e).toNat : Nat) : Int) : Int) : ℚ) * 2 ^ e =
      x.magnitudeFloor := by
  rw [← significand_mul_zpow hi]
  push_cast
  rw [mul_assoc, ← zpow_natCast, Int.toNat_of_nonneg (by omega), ← zpow_add₀ two_ne_zero]
  congr 2
  ring

/-- An equation `m · 2 ^ e = n` of rationals, cleared of the power of two's denominator. -/
theorem nat_eq_of_mul_zpow {m n : Nat} {e : Int} (h : (m : ℚ) * 2 ^ e = n) :
    m * 2 ^ e.toNat = n * 2 ^ (-e).toNat := by
  have hpow : (2 : ℚ) ^ e = 2 ^ e.toNat / 2 ^ (-e).toNat := by
    rw [← zpow_natCast, ← zpow_natCast, ← zpow_sub₀ two_ne_zero]
    congr 1
    omega
  rw [hpow, mul_div_assoc', div_eq_iff (by positivity)] at h
  exact_mod_cast h

-- ---------------------------------------------------------------------------
-- The sign bit
-- ---------------------------------------------------------------------------

/-- Flipping the top bit of a 64-bit pattern adds or takes away `2 ^ 63`. -/
theorem xor_top_bit {n : Nat} (h : n < 2 ^ 64) :
    n ^^^ 2 ^ 63 = if n < 2 ^ 63 then n + 2 ^ 63 else n - 2 ^ 63 := by
  have hlow : (n ^^^ 2 ^ 63) % 2 ^ 63 = n % 2 ^ 63 := by
    rw [Nat.xor_mod_two_pow, Nat.mod_self, Nat.xor_zero]
  have hhigh : (n ^^^ 2 ^ 63) / 2 ^ 63 = n / 2 ^ 63 ^^^ 1 := by
    rw [Nat.xor_div_two_pow, Nat.div_self (Nat.two_pow_pos _)]
  have hsplit := Nat.div_add_mod (n ^^^ 2 ^ 63) (2 ^ 63)
  rw [hlow, hhigh] at hsplit
  by_cases hn : n < 2 ^ 63
  · rw [if_pos hn, Nat.div_eq_of_lt hn, show (0 ^^^ 1 : Nat) = 1 by rfl] at *
    omega
  · rw [if_neg hn, show n / 2 ^ 63 = 1 by omega, show (1 ^^^ 1 : Nat) = 0 by rfl] at *
    omega

/-- `neg` flips the sign and keeps the exponent and the fraction. -/
theorem neg_fields (x : Binary64) :
    x.neg.negative = !x.negative ∧ x.neg.exponent = x.exponent ∧ x.neg.fraction = x.fraction := by
  have hb := x.bits.toNat_lt_size
  have hbits : x.neg.bits.toNat = x.bits.toNat ^^^ 2 ^ 63 := by
    simp only [neg, UInt64.toNat_xor]
    rfl
  simp only [UInt64.size] at hb
  simp only [negative, exponent, fraction, Nat.pow_eq]
  rw [hbits, xor_top_bit hb]
  by_cases hn : x.bits.toNat < 2 ^ 63
  · simp only [hn, if_true]
    refine ⟨?_, by omega, by omega⟩
    rw [decide_eq_true (by omega), decide_eq_false (by omega)]
    rfl
  · simp only [hn, if_false]
    refine ⟨?_, by omega, by omega⟩
    rw [decide_eq_false (by omega), decide_eq_true (by omega)]
    rfl

theorem neg_isFinite (x : Binary64) : x.neg.isFinite = x.isFinite := by
  simp [isFinite, (neg_fields x).2.1]

theorem neg_isIntegral (x : Binary64) : x.neg.isIntegral = x.isIntegral := by
  unfold isIntegral scale significand
  rw [(neg_fields x).2.1, (neg_fields x).2.2]

theorem neg_truncate (x : Binary64) : x.neg.truncate = -x.truncate := by
  have hmag : x.neg.magnitudeFloor = x.magnitudeFloor := by
    unfold magnitudeFloor scale significand
    rw [(neg_fields x).2.1, (neg_fields x).2.2]
  unfold truncate
  rw [hmag, (neg_fields x).1]
  cases x.negative <;> simp

-- ---------------------------------------------------------------------------
-- Sums, differences and products of integers
-- ---------------------------------------------------------------------------

/-- An integer `s · 2 ^ e` that equals the integer `n`: cleared of the power of two's
denominator, and with the sign and the zero of `n`. -/
theorem natAbs_eq_of_mul_zpow {s n e : Int} (h : (s : ℚ) * 2 ^ e = n) :
    s.natAbs * 2 ^ e.toNat = n.natAbs * 2 ^ (-e).toNat ∧ (s < 0 ↔ n < 0) ∧ (s = 0 ↔ n = 0) := by
  have hpos : (0 : ℚ) < 2 ^ e := zpow_pos two_pos e
  refine ⟨nat_eq_of_mul_zpow ?_, ⟨fun hs => ?_, fun hn => ?_⟩, ⟨fun hs => ?_, fun hn => ?_⟩⟩
  · rw [Nat.cast_natAbs, Nat.cast_natAbs, Int.cast_abs, Int.cast_abs, ← abs_of_pos hpos,
      ← abs_mul, h]
  · have : (s : ℚ) * 2 ^ e < 0 := mul_neg_of_neg_of_pos (by exact_mod_cast hs) hpos
    rw [h] at this
    exact_mod_cast this
  · by_contra hs
    have : 0 ≤ (s : ℚ) * 2 ^ e := mul_nonneg (by exact_mod_cast not_lt.mp hs) hpos.le
    rw [h] at this
    exact absurd hn (not_lt.mpr (by exact_mod_cast this))
  · rw [hs, Int.cast_zero, zero_mul] at h
    exact_mod_cast h.symm
  · rw [hn, Int.cast_zero] at h
    exact_mod_cast (mul_eq_zero.mp h).resolve_right hpos.ne'

/-- **The sum of two integer words is exact**, when it is below `2 ^ 53` in magnitude; an exact
zero is the positive one unless both words are negative. -/
theorem add_of_integral {x y : Binary64} (hx : x.isFinite = true) (hxi : x.isIntegral = true)
    (hy : y.isFinite = true) (hyi : y.isIntegral = true)
    (h : (x.truncate + y.truncate).natAbs < 2 ^ 53)
    (hz : x.truncate + y.truncate = 0 → (x.negative && y.negative) = false) :
    x.add y = ofInt (x.truncate + y.truncate) := by
  rw [add, if_neg (by simp [isNaN_of_isFinite hx]), if_neg (by simp [isNaN_of_isFinite hy]),
    if_neg (by simp [hx]), if_neg (by simp [hy]), addFinite]
  simp only [Nat.pow_eq]
  -- aligned to the smaller scale, the signed significands sum to the integer sum
  generalize he : min x.scale y.scale = e
  have hx' := aligned_mul_zpow hxi (e := e) (by omega)
  have hy' := aligned_mul_zpow hyi (e := e) (by omega)
  generalize (x.significand : Int) * ((2 ^ (x.scale - e).toNat : Nat) : Int) = mx at hx' ⊢
  generalize (y.significand : Int) * ((2 ^ (y.scale - e).toNat : Nat) : Int) = my at hy' ⊢
  generalize hs : (if x.negative = true then -mx else mx) + (if y.negative = true then -my else my) = s
  have hsum : (s : ℚ) * 2 ^ e = ((x.truncate + y.truncate : Int) : ℚ) := by
    rw [← hs]
    unfold truncate
    split <;> split <;> push_cast <;> rw [← hx', ← hy'] <;> ring
  obtain ⟨habs, hneg, hzero⟩ := natAbs_eq_of_mul_zpow hsum
  split
  · -- an exact zero
    rename_i hs0
    have huv := hzero.mp hs0
    rw [hz huv, huv, ofInt_eq, Int.natAbs_zero, ofExact_zero]
    rfl
  · rename_i hs0
    have hpos : 0 < (x.truncate + y.truncate).natAbs :=
      Int.natAbs_pos.mpr (fun h0 => hs0 (hzero.mpr h0))
    rw [roundScaled, Nat.pow_eq, Nat.pow_eq, roundRatio_of_eq_mul _ habs (Nat.two_pow_pos _) hpos h,
      ofInt_eq, decide_eq_decide.mpr hneg]

/-- The word of the difference of two integers below `2 ^ 53`, when it is below `2 ^ 53`
too. -/
theorem sub_ofInt {u v : Int} (hu : u.natAbs < 2 ^ 53) (hv : v.natAbs < 2 ^ 53)
    (h : (u - v).natAbs < 2 ^ 53) : (ofInt u).sub (ofInt v) = ofInt (u - v) := by
  obtain ⟨hxf, hxi, hxt, hxn⟩ := isInt_ofInt hu
  obtain ⟨hyf, hyi, hyt, hyn⟩ := isInt_ofInt hv
  rw [sub, if_neg (by simp [isNaN_of_isFinite hxf]), if_neg (by simp [isNaN_of_isFinite hyf])]
  have hsum := add_of_integral hxf hxi (by rwa [neg_isFinite]) (by rwa [neg_isIntegral])
    (by rwa [neg_truncate, hxt, hyt, ← Int.sub_eq_add_neg])
    (by
      rw [neg_truncate, hxt, hyt, (neg_fields _).1, hxn, hyn]
      intro h0
      have : u = v := by omega
      subst this
      cases decide (u < 0) <;> rfl)
  rw [hsum, neg_truncate, hxt, hyt, ← Int.sub_eq_add_neg]

/-- The word of the sum of two integers below `2 ^ 53`, when it is below `2 ^ 53` too. -/
theorem add_ofInt {u v : Int} (hu : u.natAbs < 2 ^ 53) (hv : v.natAbs < 2 ^ 53)
    (h : (u + v).natAbs < 2 ^ 53) : (ofInt u).add (ofInt v) = ofInt (u + v) := by
  obtain ⟨hxf, hxi, hxt, hxn⟩ := isInt_ofInt hu
  obtain ⟨hyf, hyi, hyt, hyn⟩ := isInt_ofInt hv
  rw [add_of_integral hxf hxi hyf hyi (by rwa [hxt, hyt]) (by
    rw [hxt, hyt, hxn, hyn]
    intro h0
    by_cases hu0 : u < 0
    · have hv0 : ¬v < 0 := by omega
      simp [hu0, hv0]
    · simp [hu0]), hxt, hyt]

/-- **The product of two integer words is exact**, when it is not zero and below `2 ^ 53` in
magnitude. -/
theorem mul_of_integral {x y : Binary64} (hx : x.isFinite = true) (hxi : x.isIntegral = true)
    (hy : y.isFinite = true) (hyi : y.isIntegral = true)
    (h : (x.truncate * y.truncate).natAbs < 2 ^ 53) (h0 : x.truncate * y.truncate ≠ 0) :
    x.mul y = ofInt (x.truncate * y.truncate) := by
  rw [mul, if_neg (by simp [isNaN_of_isFinite hx]), if_neg (by simp [isNaN_of_isFinite hy])]
  dsimp only
  rw [if_neg (by simp [hx, hy]), roundScaled, Nat.pow_eq, Nat.pow_eq]
  have hval : ((x.significand * y.significand : Nat) : ℚ) * 2 ^ (x.scale + y.scale) =
      ((x.magnitudeFloor * y.magnitudeFloor : Nat) : ℚ) := by
    rw [zpow_add₀ two_ne_zero, Nat.cast_mul, Nat.cast_mul, ← significand_mul_zpow hxi,
      ← significand_mul_zpow hyi]
    ring
  have hmag : (x.truncate * y.truncate).natAbs = x.magnitudeFloor * y.magnitudeFloor := by
    rw [Int.natAbs_mul, natAbs_truncate, natAbs_truncate]
  rw [roundRatio_of_eq_mul _ (nat_eq_of_mul_zpow hval) (Nat.two_pow_pos _)
      (by rw [← hmag]; exact Int.natAbs_pos.mpr h0) (by rwa [← hmag]), ofInt_eq, hmag]
  -- the sign of a product of non-zero integers
  have hu : x.truncate ≠ 0 := left_ne_zero_of_mul h0
  have hv : y.truncate ≠ 0 := right_ne_zero_of_mul h0
  rw [negative_of_truncate_ne_zero hu, negative_of_truncate_ne_zero hv]
  congr 1
  by_cases hu' : x.truncate < 0 <;> by_cases hv' : y.truncate < 0 <;>
    simp [hu', hv', mul_neg_iff] <;> omega

/-- The word of the product of two non-zero integers, when it is below `2 ^ 53`. -/
theorem mul_ofInt {u v : Int} (hu : u.natAbs < 2 ^ 53) (hv : v.natAbs < 2 ^ 53)
    (h : (u * v).natAbs < 2 ^ 53) (h0 : u * v ≠ 0) : (ofInt u).mul (ofInt v) = ofInt (u * v) := by
  obtain ⟨hxf, hxi, hxt, -⟩ := isInt_ofInt hu
  obtain ⟨hyf, hyi, hyt, -⟩ := isInt_ofInt hv
  rw [mul_of_integral hxf hxi hyf hyi (by rwa [hxt, hyt]) (by rwa [hxt, hyt]), hxt, hyt]

-- ---------------------------------------------------------------------------
-- Quotients
-- ---------------------------------------------------------------------------

theorem magnitudeFloor_pos_of_truncate_ne_zero {y : Binary64} (h : y.truncate ≠ 0) :
    0 < y.magnitudeFloor := by
  rw [← natAbs_truncate]
  exact Int.natAbs_pos.mpr h

theorem significand_pos_of_truncate_ne_zero {y : Binary64} (h : y.truncate ≠ 0) :
    0 < y.significand := by
  have hmag := magnitudeFloor_pos_of_truncate_ne_zero h
  rcases Nat.eq_zero_or_pos y.significand with h0 | h0
  · simp [magnitudeFloor, scaleDown, h0] at hmag
  · exact h0

/-- A word holding a non-zero integer is no zero. -/
theorem isZero_of_truncate_ne_zero {y : Binary64} (h : y.truncate ≠ 0) : y.isZero = false := by
  have hsig := significand_pos_of_truncate_ne_zero h
  by_contra hz
  simp only [isZero, Bool.not_eq_false, Bool.and_eq_true, beq_iff_eq] at hz
  simp [significand, hz.1, hz.2] at hsig

/-- **A quotient of integer words is the rounded ratio of their magnitudes**, with the sign of
the quotient. -/
theorem div_of_integral {x y : Binary64} (hx : x.isFinite = true) (hxi : x.isIntegral = true)
    (hy : y.isFinite = true) (hyi : y.isIntegral = true) (hy0 : y.truncate ≠ 0) :
    x.div y = roundRatio (x.negative != y.negative) x.magnitudeFloor y.magnitudeFloor := by
  have hmag := magnitudeFloor_pos_of_truncate_ne_zero hy0
  have hsig := significand_pos_of_truncate_ne_zero hy0
  have hzero := isZero_of_truncate_ne_zero hy0
  rw [div, if_neg (by simp [isNaN_of_isFinite hx]), if_neg (by simp [isNaN_of_isFinite hy])]
  dsimp only
  rw [if_neg (by simp [hx]), if_neg (by simp [hy]), if_neg (by simp [hzero]), Nat.pow_eq,
    Nat.pow_eq]
  apply roundRatio_congr _ _ (Nat.mul_pos hsig (Nat.two_pow_pos _)) hmag
  -- both ratios are `x.significand · 2 ^ x.scale` over `y.significand · 2 ^ y.scale`
  have hpow : (2 : ℚ) ^ ((x.scale - y.scale).toNat : Int) * 2 ^ y.scale =
      2 ^ x.scale * 2 ^ ((y.scale - x.scale).toNat : Int) := by
    rw [← zpow_add₀ two_ne_zero, ← zpow_add₀ two_ne_zero]
    congr 1
    omega
  have hq : ((x.significand * 2 ^ (x.scale - y.scale).toNat * y.magnitudeFloor : Nat) : ℚ) =
      ((x.magnitudeFloor * (y.significand * 2 ^ (y.scale - x.scale).toNat) : Nat) : ℚ) := by
    push_cast
    rw [← significand_mul_zpow hxi, ← significand_mul_zpow hyi, ← zpow_natCast, ← zpow_natCast]
    linear_combination (x.significand : ℚ) * y.significand * hpow
  exact_mod_cast hq

-- ---------------------------------------------------------------------------
-- Sign, magnitude and order of integer words
-- ---------------------------------------------------------------------------

theorem ofInt_fields {n : Int} (h : n.natAbs < 2 ^ 53) :
    ∃ e f, e < 2048 ∧ f < 2 ^ 52 ∧ ofInt n = ofFields (decide (n < 0)) e f ∧
      ofInt n.natAbs = ofFields false e f := by
  rw [ofInt_eq, ofInt_eq, Int.natAbs_natCast, show decide ((n.natAbs : Int) < 0) = false by simp]
  rcases Nat.eq_zero_or_pos n.natAbs with h0 | h0
  · exact ⟨0, 0, by decide, Nat.two_pow_pos _, by rw [h0, ofExact_zero], by rw [h0, ofExact_zero]⟩
  · obtain ⟨hL, hlo, hhi⟩ := shifted_bounds h0 h
    exact ⟨_, _, by omega, by omega, ofExact_int _ h0 h, ofExact_int _ h0 h⟩

/-- `abs` of the word of an integer is the word of its magnitude. -/
theorem abs_ofInt {n : Int} (h : n.natAbs < 2 ^ 53) : (ofInt n).abs = ofInt n.natAbs := by
  obtain ⟨e, f, he, hf, hn, hm⟩ := ofInt_fields h
  rw [hn, hm, abs, exponent_ofFields _ he hf, fraction_ofFields _ he hf]

/-- `signum` of the word of an integer is the word of `-1` or `1`; zero counts as positive. -/
theorem signum_ofInt {n : Int} (h : n.natAbs < 2 ^ 53) :
    (ofInt n).signum = ofInt (if n < 0 then -1 else 1) := by
  obtain ⟨hfin, -, -, hneg⟩ := isInt_ofInt h
  have hone : ∀ s : Bool, ofFields s 1023 0 = ofExact s 1 0 := by
    intro s
    rw [ofExact_int s Nat.one_pos (by decide)]
    rfl
  rw [signum, if_neg (by simp [isNaN_of_isFinite hfin]), hneg, hone, ofInt_eq]
  by_cases hn : n < 0 <;> simp [hn]

theorem magnitudeFloor_ofInt {n : Int} (h : n.natAbs < 2 ^ 53) :
    (ofInt n).magnitudeFloor = n.natAbs := by
  rw [← natAbs_truncate, (isInt_ofInt h).2.2.1]

/-- The place of the word of a natural number in the order: zero, then the exponent and the
fraction of a normal word. -/
theorem orderKey_ofInt {n : Nat} (h : n < 2 ^ 53) :
    (ofInt n).orderKey = if n = 0 then 0 else
      ((n.log2 + 1023) * 2 ^ 52 + (n * 2 ^ (52 - n.log2) - 2 ^ 52) : Nat) := by
  rw [ofInt_eq, Int.natAbs_natCast, show decide ((n : Int) < 0) = false by simp]
  rcases Nat.eq_zero_or_pos n with rfl | h0
  · rw [ofExact_zero, orderKey]
    simp only [negative_ofFields false (by decide : 0 < 2048) (Nat.two_pow_pos 52),
      exponent_ofFields false (by decide : 0 < 2048) (Nat.two_pow_pos 52),
      fraction_ofFields false (by decide : 0 < 2048) (Nat.two_pow_pos 52)]
    rfl
  · obtain ⟨hneg, hexp, hfrac⟩ := fields_ofExact_int false h0 h
    rw [orderKey, if_neg (Nat.ne_of_gt h0)]
    simp only [hneg, hexp, hfrac, Nat.pow_eq, Bool.false_eq_true, if_false]
    push_cast
    rfl

/-- The order places the words of larger natural numbers further up. -/
theorem orderKey_ofInt_lt {m n : Nat} (hmn : m < n) (hn : n < 2 ^ 53) :
    (ofInt m).orderKey < (ofInt n).orderKey := by
  have hn0 : 0 < n := by omega
  obtain ⟨hLn, hlon, hhin⟩ := shifted_bounds hn0 hn
  rw [orderKey_ofInt (by omega), orderKey_ofInt hn, if_neg (Nat.ne_of_gt hn0)]
  rcases Nat.eq_zero_or_pos m with rfl | hm0
  · rw [if_pos rfl]
    exact_mod_cast Nat.lt_of_lt_of_le (by omega) (Nat.le_add_right _ _)
  rw [if_neg (Nat.ne_of_gt hm0)]
  obtain ⟨hLm, hlom, hhim⟩ := shifted_bounds hm0 (by omega)
  have hle : m.log2 ≤ n.log2 := (Nat.le_log2 (by omega)).mpr
    (Nat.le_trans (Nat.log2_self_le (by omega)) hmn.le)
  apply Int.ofNat_lt.mpr
  rcases Nat.lt_or_eq_of_le hle with hlt | heq
  · -- a higher binade: the fraction cannot make up a whole step of the exponent
    have hstep : (m.log2 + 1023) * 2 ^ 52 + 2 ^ 52 ≤ (n.log2 + 1023) * 2 ^ 52 := by
      rw [← Nat.succ_mul]
      exact Nat.mul_le_mul_right _ (by omega)
    omega
  · -- the same binade: the fractions are `m` and `n` moved up by the same amount
    rw [heq] at hlom hhim ⊢
    have := Nat.mul_lt_mul_of_pos_right hmn (Nat.two_pow_pos (52 - n.log2))
    omega

/-- On the words of natural numbers below `2 ^ 53`, `lt` is the order of the numbers. -/
theorem lt_ofInt {m n : Nat} (hm : m < 2 ^ 53) (hn : n < 2 ^ 53) :
    (ofInt m).lt (ofInt n) = decide (m < n) := by
  have hfm := (isInt_ofInt (n := m) (by simpa using hm)).1
  have hfn := (isInt_ofInt (n := n) (by simpa using hn)).1
  rw [lt, isNaN_of_isFinite hfm, isNaN_of_isFinite hfn, Bool.not_false, Bool.true_and,
    Bool.true_and, decide_eq_decide]
  constructor
  · intro hkey
    by_contra hge
    rcases Nat.lt_or_eq_of_le (Nat.not_lt.mp hge) with hlt | rfl
    · exact absurd (orderKey_ofInt_lt hlt hm) (not_lt.mpr hkey.le)
    · exact lt_irrefl _ hkey
  · intro hmn
    exact orderKey_ofInt_lt hmn hn

end Binary64

end Concatenative
