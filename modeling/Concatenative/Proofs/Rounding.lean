import Concatenative.Proofs.Integers

/-!
# Rounding a ratio to a binary64 word

`Binary64.roundRatio s num den` is the word nearest to `± num / den`, ties to even. It finds the
binade of the ratio (`Binary64.ratioLog`), scales the ratio to 53 significant bits, or to the
subnormal quantum, and rounds the scaled ratio to an integer (`Binary64.roundHalfEven`). Each
step sees the ratio only through comparisons of `num` with multiples of `den`, so the result
depends on the rational number `num / den` alone (`Binary64.roundRatio_congr`), and a ratio that
is an integer below `2 ^ 53` comes out as that integer's word, exactly
(`Binary64.roundRatio_of_eq_mul`).

A quotient of two natural numbers below `2 ^ 32` keeps its integer part through rounding:
rounding moves it by at most half a unit in the 53rd bit, which is less than its distance to the
next integer (`Binary64.floor_roundRatio`).

## Main results

* `Binary64.ratioLog_eq` — `ratioLog` is the binade of the ratio.
* `Binary64.roundRatio_congr` — the rounded word depends only on the ratio.
* `Binary64.roundRatio_of_eq_mul` — an integer ratio below `2 ^ 53` is rounded exactly.
* `Binary64.floor_roundRatio` — the floor of a rounded small quotient is the integer quotient.
-/

namespace Concatenative

namespace Binary64

-- ---------------------------------------------------------------------------
-- Rounding to an integer
-- ---------------------------------------------------------------------------

/-- Rounding a quotient gives its floor or the next integer. -/
theorem roundHalfEven_bounds (num den : Nat) :
    num / den ≤ roundHalfEven num den ∧ roundHalfEven num den ≤ num / den + 1 := by
  simp only [roundHalfEven]
  split <;> omega

/-- An exact quotient is its own rounding. -/
theorem roundHalfEven_exact (q : Nat) {den : Nat} (hden : 0 < den) :
    roundHalfEven (q * den) den = q := by
  have hr : 2 * (q * den % den) = 0 := by rw [Nat.mul_mod_left]
  simp only [roundHalfEven, Nat.mul_div_cancel _ hden, hr]
  split
  · rename_i hup
    simp only [Bool.or_eq_true, decide_eq_true_eq, Bool.and_eq_true, beq_iff_eq] at hup
    omega
  · rfl

/-- Rounding a quotient depends on the ratio only. -/
theorem roundHalfEven_mul (num den : Nat) {k : Nat} (hk : 0 < k) :
    roundHalfEven (num * k) (den * k) = roundHalfEven num den := by
  have hlt : den * k < 2 * (num % den * k) ↔ den < 2 * (num % den) := by
    rw [← Nat.mul_assoc]
    exact Nat.mul_lt_mul_right hk
  have heq : (2 * (num % den * k) == den * k) = (2 * (num % den) == den) := by
    rw [Bool.eq_iff_iff, beq_iff_eq, beq_iff_eq, ← Nat.mul_assoc]
    exact Nat.mul_left_inj (Nat.ne_of_gt hk)
  simp only [roundHalfEven, Nat.mul_div_mul_right _ _ hk, Nat.mul_mod_mul_right, hlt, heq]

-- ---------------------------------------------------------------------------
-- The binade of a ratio
-- ---------------------------------------------------------------------------

/-- `num / den` lies in the binade `[2 ^ k, 2 ^ (k + 1))`, with both sides cleared of the
power of two's denominator. -/
def InBinade (num den : Nat) (k : Int) : Prop :=
  den * 2 ^ k.toNat ≤ num * 2 ^ (-k).toNat ∧ num * 2 ^ (-k).toNat < 2 * den * 2 ^ k.toNat

theorem InBinade.mul {num den : Nat} {k : Int} (h : InBinade num den k) {c : Nat} (hc : 0 < c) :
    InBinade (num * c) (den * c) k := by
  obtain ⟨hlo, hhi⟩ := h
  constructor
  · calc den * c * 2 ^ k.toNat = den * 2 ^ k.toNat * c := Nat.mul_right_comm _ _ _
      _ ≤ num * 2 ^ (-k).toNat * c := Nat.mul_le_mul_right _ hlo
      _ = num * c * 2 ^ (-k).toNat := Nat.mul_right_comm _ _ _
  · calc num * c * 2 ^ (-k).toNat = num * 2 ^ (-k).toNat * c := Nat.mul_right_comm _ _ _
      _ < 2 * den * 2 ^ k.toNat * c := Nat.mul_lt_mul_of_pos_right hhi hc
      _ = 2 * (den * c) * 2 ^ k.toNat := by
        rw [Nat.mul_right_comm, Nat.mul_assoc 2 den c]

section Binade

variable {num den : Nat}

/-- `ratioLog` finds the binade of the ratio. -/
theorem inBinade_ratioLog (hnum : 0 < num) (hden : 0 < den) :
    InBinade num den (ratioLog num den) := by
  unfold ratioLog InBinade
  split
  · -- at least one: the binade of the integer quotient
    rename_i hle
    have hq : num / den ≠ 0 := by
      rw [Ne, Nat.div_eq_zero_iff]
      omega
    have hlo := Nat.mul_le_mul_left den (Nat.log2_self_le hq)
    have hhi := (Nat.div_lt_iff_lt_mul hden).mp (Nat.lt_log2_self (n := num / den))
    have hdiv := Nat.mul_div_le num den
    simp only [Int.toNat_natCast, Int.toNat_neg_natCast, Nat.pow_zero, Nat.mul_one]
    rw [Nat.pow_succ] at hhi
    have e : 2 ^ (num / den).log2 * 2 * den = 2 * den * 2 ^ (num / den).log2 := by ring
    omega
  · -- below one: the least power of two that lifts `num` to `den`
    rename_i hlt
    have hq : (den - 1) / num ≠ 0 := by
      rw [Ne, Nat.div_eq_zero_iff]
      omega
    have hlo := (Nat.le_div_iff_mul_le hnum).mp (Nat.log2_self_le hq)
    have hhi := (Nat.div_lt_iff_lt_mul hnum).mp (Nat.lt_log2_self (n := (den - 1) / num))
    have hk : (-(((den - 1) / num).log2 + 1 : Int)).toNat = 0 := by omega
    have hk' : (-(-(((den - 1) / num).log2 + 1 : Int))).toNat = ((den - 1) / num).log2 + 1 := by
      omega
    simp only [hk, hk', Nat.pow_zero, Nat.mul_one]
    rw [Nat.pow_succ] at hhi ⊢
    have e : num * (2 ^ ((den - 1) / num).log2 * 2) = 2 * (2 ^ ((den - 1) / num).log2 * num) := by
      ring
    have e' : 2 ^ ((den - 1) / num).log2 * 2 * num = 2 * (2 ^ ((den - 1) / num).log2 * num) := by
      ring
    rw [e]
    rw [e'] at hhi
    omega

/-- A ratio lies in one binade only, the one `ratioLog` finds. -/
theorem ratioLog_eq {k : Int} (h : InBinade num den k) (hnum : 0 < num) (hden : 0 < den) :
    ratioLog num den = k := by
  obtain ⟨hlo, hhi⟩ := h
  unfold ratioLog
  split
  · -- at least one, so `k` is not negative
    rename_i hle
    have hk : 0 ≤ k := by
      by_contra hk
      obtain ⟨j, hj⟩ : ∃ j, (-k).toNat = j + 1 := ⟨(-k).toNat - 1, by omega⟩
      rw [show k.toNat = 0 by omega, hj, Nat.pow_succ] at hhi
      have hj2 : num * 2 ≤ num * (2 ^ j * 2) :=
        Nat.mul_le_mul_left _ (by have := Nat.one_le_two_pow (n := j); omega)
      omega
    obtain ⟨n, rfl⟩ : ∃ n : Nat, k = n := ⟨k.toNat, by omega⟩
    simp only [Int.toNat_natCast, Int.toNat_neg_natCast, Nat.pow_zero, Nat.mul_one] at hlo hhi
    have hq : num / den ≠ 0 := by
      rw [Ne, Nat.div_eq_zero_iff]
      omega
    rw [(Nat.log2_eq_iff hq).mpr ⟨(Nat.le_div_iff_mul_le hden).mpr (by rw [Nat.mul_comm]; exact hlo),
      (Nat.div_lt_iff_lt_mul hden).mpr (by rw [Nat.pow_succ]; linarith)⟩]
  · -- below one, so `k` is negative
    rename_i hlt
    have hk : k < 0 := by
      by_contra hk
      rw [show (-k).toNat = 0 by omega, Nat.pow_zero, Nat.mul_one] at hlo
      have hden2 : den ≤ den * 2 ^ k.toNat := Nat.le_mul_of_pos_right _ (Nat.two_pow_pos _)
      omega
    obtain ⟨j, rfl⟩ : ∃ j : Nat, k = -((j : Int) + 1) := ⟨(-k).toNat - 1, by omega⟩
    rw [show (-((j : Int) + 1)).toNat = 0 by omega, Nat.pow_zero, Nat.mul_one,
      show (-(-((j : Int) + 1))).toNat = j + 1 by omega, Nat.pow_succ] at hlo hhi
    have hq : (den - 1) / num ≠ 0 := by
      rw [Ne, Nat.div_eq_zero_iff]
      omega
    have e : num * (2 ^ j * 2) = 2 * (2 ^ j * num) := by ring
    have e' : 2 ^ (j + 1) * num = 2 * (2 ^ j * num) := by ring
    rw [e] at hlo hhi
    have hlow : 2 ^ j * num ≤ den - 1 := by omega
    have hhigh : den - 1 < 2 ^ (j + 1) * num := by omega
    rw [(Nat.log2_eq_iff hq).mpr ⟨(Nat.le_div_iff_mul_le hnum).mpr hlow,
      (Nat.div_lt_iff_lt_mul hnum).mpr hhigh⟩]

/-- Scaling both sides of the ratio keeps its binade. -/
theorem ratioLog_mul (hnum : 0 < num) (hden : 0 < den) {c : Nat} (hc : 0 < c) :
    ratioLog (num * c) (den * c) = ratioLog num den :=
  ratioLog_eq ((inBinade_ratioLog hnum hden).mul hc) (Nat.mul_pos hnum hc) (Nat.mul_pos hden hc)

end Binade

-- ---------------------------------------------------------------------------
-- The rounded word depends on the ratio only
-- ---------------------------------------------------------------------------

theorem roundRatio_mul (s : Bool) (num : Nat) {den c : Nat} (hden : 0 < den) (hc : 0 < c) :
    roundRatio s (num * c) (den * c) = roundRatio s num den := by
  rcases Nat.eq_zero_or_pos num with rfl | hnum
  · simp [roundRatio]
  · have hround : ∀ a b : Nat,
        roundHalfEven (num * c * a) (den * c * b) = roundHalfEven (num * a) (den * b) := by
      intro a b
      rw [Nat.mul_right_comm num c a, Nat.mul_right_comm den c b, roundHalfEven_mul _ _ hc]
    simp only [roundRatio, Nat.mul_eq_zero, Nat.ne_of_gt hnum, Nat.ne_of_gt hc, or_self,
      if_false, ratioLog_mul hnum hden hc, hround]

/-- Two ratios that are equal as fractions round to the same word. -/
theorem roundRatio_congr (s : Bool) {num den num' den' : Nat} (h : num * den' = num' * den)
    (hden : 0 < den) (hden' : 0 < den') : roundRatio s num den = roundRatio s num' den' := by
  rw [← roundRatio_mul s num hden hden', h, Nat.mul_comm den den', roundRatio_mul s num' hden' hden]

-- ---------------------------------------------------------------------------
-- Integers are rounded exactly
-- ---------------------------------------------------------------------------

/-- A positive integer below `2 ^ 53` is its own rounding. -/
theorem roundRatio_nat (s : Bool) {n : Nat} (h0 : 0 < n) (h : n < 2 ^ 53) :
    roundRatio s n 1 = ofExact s n 0 := by
  obtain ⟨hL, hlo, hhi⟩ := shifted_bounds h0 h
  have hlog : ratioLog n 1 = n.log2 := by simp [ratioLog, show 1 ≤ n by omega]
  have ht : max ((n.log2 : Int) - 52) (-1074) = (n.log2 : Int) - 52 := by omega
  have hup : (-((n.log2 : Int) - 52)).toNat = 52 - n.log2 := by omega
  have hdown : ((n.log2 : Int) - 52).toNat = 0 := by omega
  have hm : roundHalfEven (n * 2 ^ (52 - n.log2)) (1 * 2 ^ 0) = n * 2 ^ (52 - n.log2) := by
    simpa using roundHalfEven_exact (n * 2 ^ (52 - n.log2)) Nat.one_pos
  have hexp : ((n.log2 : Int) - 52 + 1075).toNat = n.log2 + 1023 := by omega
  rw [ofExact_int s h0 h]
  simp only [roundRatio, Nat.ne_of_gt h0, if_false, hlog, ht, hup, hdown, Nat.pow_eq, hm,
    assemble]
  rw [if_neg (by omega), if_neg (Nat.not_lt.mpr hlo), if_pos (by omega), hexp]

/-- A ratio that is a positive integer below `2 ^ 53` rounds to that integer's word. -/
theorem roundRatio_of_eq_mul (s : Bool) {num den n : Nat} (h : num = n * den) (hden : 0 < den)
    (h0 : 0 < n) (hn : n < 2 ^ 53) : roundRatio s num den = ofExact s n 0 := by
  rw [@roundRatio_congr s num den n 1 (by rw [h, Nat.mul_one, Nat.mul_comm]) hden Nat.one_pos,
    roundRatio_nat s h0 hn]

/-- `ofNat` is exact below `2 ^ 53`. -/
theorem ofNat_eq_ofInt {n : Nat} (h : n < 2 ^ 53) : ofNat n = ofInt n := by
  rw [ofInt_eq, ofNat]
  rcases Nat.eq_zero_or_pos n with rfl | h0
  · simp [roundRatio, ofExact_zero]
  · rw [Int.natAbs_natCast, roundRatio_nat _ h0 h, show decide ((n : Int) < 0) = false by simp]

-- ---------------------------------------------------------------------------
-- The floor of a rounded quotient
-- ---------------------------------------------------------------------------

/-- Rounding stays at or below `B` when the quotient is below `B + 1 / 2`. -/
theorem roundHalfEven_le_of_lt {num den B : Nat} (h : 2 * num < (2 * B + 1) * den) :
    roundHalfEven num den ≤ B := by
  have hden : 0 < den := by
    rcases Nat.eq_zero_or_pos den with rfl | hden
    · simp at h
    · exact hden
  have hq : num / den ≤ B := by
    apply Nat.le_of_lt_succ
    rw [Nat.div_lt_iff_lt_mul hden]
    nlinarith
  have hmod := Nat.mod_add_div num den
  simp only [roundHalfEven]
  split
  · -- rounding up happens only below `B`, at least half a unit short of `B + 1 / 2`
    rename_i hup
    simp only [Bool.or_eq_true, decide_eq_true_eq, Bool.and_eq_true, beq_iff_eq] at hup
    rcases Nat.lt_or_ge (num / den) B with hlt | hge
    · omega
    · have hB : num / den = B := by omega
      rw [hB] at hmod
      have h2 : 2 * num = 2 * (num % den) + 2 * (den * B) := by omega
      have h3 : (2 * B + 1) * den = 2 * (den * B) + den := by ring
      omega
  · exact hq

/-- Rounding stays below `C` when the quotient is below `C - 1 / 2`. -/
theorem roundHalfEven_lt {num den C : Nat} (h : 2 * num + den < 2 * C * den) :
    roundHalfEven num den < C := by
  obtain ⟨C, rfl⟩ : ∃ C', C = C' + 1 := ⟨C - 1, by
    rcases Nat.eq_zero_or_pos C with rfl | hC
    · simp at h
    · omega⟩
  apply Nat.lt_succ_of_le
  apply roundHalfEven_le_of_lt
  nlinarith

/-- A finite word that is not negative has the floor of its integer part. -/
theorem floor_of_magnitudeFloor {w : Binary64} (hfin : w.isFinite = true)
    (hneg : w.negative = false) {q : Nat} (hq : w.magnitudeFloor = q) (h : q < 2 ^ 53) :
    w.floor = ofInt q := by
  unfold floor
  by_cases hint : w.isIntegral = true
  · -- already an integer: the word is the word of `q`
    have hw : w.IsInt q := ⟨hfin, hint, by simp [truncate, hneg, hq], by simp [hneg]⟩
    simp only [hfin, hint, Bool.not_true, Bool.false_or, if_true]
    exact hw.eq_ofInt (by rw [Int.natAbs_natCast]; exact h)
  · simp only [hfin, Bool.not_true, Bool.false_or, hint, hneg, Bool.false_eq_true, if_false, hq]
    exact ofNat_eq_ofInt h

/-- A significand with its top bit at bit 52 and an exponent in range assemble to a normal
word. -/
theorem assemble_normal (s : Bool) {m : Nat} {t : Int} (hlo : 2 ^ 52 ≤ m) (hhi : m < 2 ^ 53)
    (ht : -1074 ≤ t) (ht' : t + 1075 < 2047) :
    (assemble s m t).negative = s ∧ (assemble s m t).isFinite = true ∧
      (assemble s m t).significand = m ∧ (assemble s m t).scale = t := by
  have he : (t + 1075).toNat < 2048 := by omega
  have hf : m - 2 ^ 52 < 2 ^ 52 := by omega
  have hw : assemble s m t = ofFields s (t + 1075).toNat (m - 2 ^ 52) := by
    simp only [assemble, Nat.pow_eq]
    rw [if_neg (by omega), if_pos ht']
  rw [hw]
  refine ⟨negative_ofFields s he hf, ?_, ?_, ?_⟩
  · simp only [isFinite, exponent_ofFields s he hf, bne_iff_ne, ne_eq]
    omega
  · simp only [significand, exponent_ofFields s he hf, fraction_ofFields s he hf, Nat.pow_eq]
    rw [if_neg (by omega)]
    omega
  · simp only [scale, exponent_ofFields s he hf]
    rw [if_neg (by omega)]
    omega

/-- The binade of a quotient of two positive numbers below `2 ^ 32` lies in `[-32, 32)`. -/
theorem ratioLog_bounds {x y : Nat} (hx0 : 0 < x) (hx : x < 2 ^ 32) (hy0 : 0 < y)
    (hy : y < 2 ^ 32) : -32 ≤ ratioLog x y ∧ ratioLog x y < 32 := by
  obtain ⟨hI1, hI2⟩ := inBinade_ratioLog hx0 hy0
  generalize ratioLog x y = k at hI1 hI2 ⊢
  constructor
  · -- below `2 ^ -32`, `x / y` would be less than `1 / 2 ^ 32`
    by_contra hk
    rw [show k.toNat = 0 by omega, Nat.pow_zero, Nat.mul_one] at hI2
    have h33 : 2 ^ 33 ≤ 2 ^ (-k).toNat := Nat.pow_le_pow_right (by decide) (by omega)
    have hx1 : 2 ^ (-k).toNat ≤ x * 2 ^ (-k).toNat := Nat.le_mul_of_pos_left _ hx0
    omega
  · -- from `2 ^ 32` up, `x / y` would reach `2 ^ 32`
    by_contra hk
    rw [show (-k).toNat = 0 by omega, Nat.pow_zero, Nat.mul_one] at hI1
    have h32 : 2 ^ 32 ≤ 2 ^ k.toNat := Nat.pow_le_pow_right (by decide) (by omega)
    have hy1 : 2 ^ k.toNat ≤ y * 2 ^ k.toNat := Nat.le_mul_of_pos_left _ hy0
    omega

/-- Scaled by `P` with `y < 2 · P`, a rounded quotient stays in the unit `[q · P, (q + 1) · P)`
of the integer quotient `q`: rounding moves it by half a unit of `1 / y`, less than the way
to the next multiple of `P`. -/
theorem roundHalfEven_window {x y P : Nat} (hy0 : 0 < y) (hyP : y < 2 * P) :
    x / y * P ≤ roundHalfEven (x * P) y ∧ roundHalfEven (x * P) y < (x / y + 1) * P := by
  have hxq := Nat.lt_div_mul_add (a := x) hy0
  have hqy := Nat.div_mul_le_self x y
  generalize x / y = q at hxq hqy ⊢
  constructor
  · calc q * P = q * P * y / y := (Nat.mul_div_cancel _ hy0).symm
      _ ≤ x * P / y := Nat.div_le_div_right (by nlinarith)
      _ ≤ roundHalfEven (x * P) y := (roundHalfEven_bounds _ _).1
  · apply roundHalfEven_lt
    nlinarith

/-- **The floor of a rounded quotient is the integer quotient**, for numbers below `2 ^ 32`:
rounding to 53 bits moves the quotient by less than its distance to the next integer. -/
theorem floor_roundRatio {x y : Nat} (hx : x < 2 ^ 32) (hy0 : 0 < y) (hy : y < 2 ^ 32) :
    (roundRatio false x y).floor = ofInt (x / y : Nat) := by
  rcases Nat.eq_zero_or_pos x with rfl | hx0
  · -- the positive zero is already an integer
    have hw := isInt_zero
    have hmag : (ofFields false 0 0).magnitudeFloor = 0 := by
      have htr := hw.2.2.1
      unfold truncate at htr
      split at htr <;> omega
    rw [show roundRatio false 0 y = ofFields false 0 0 by rw [roundRatio, if_pos rfl], Nat.zero_div]
    exact floor_of_magnitudeFloor hw.1 (hw.2.2.2.trans (by decide)) hmag (by decide)
  obtain ⟨hk_lo, hk_hi⟩ := ratioLog_bounds hx0 hx hy0 hy
  obtain ⟨hI1, hI2⟩ := inBinade_ratioLog hx0 hy0
  rw [roundRatio, if_neg (Nat.ne_of_gt hx0)]
  dsimp only
  simp only [Nat.pow_eq]
  generalize ratioLog x y = k at hk_lo hk_hi hI1 hI2 ⊢
  generalize ha : k.toNat = a at hI1 hI2
  generalize hb : (-k).toNat = b at hI1 hI2
  have ht : max (k - 52) (-1074) = k - 52 := by omega
  rw [ht, show (-(k - 52)).toNat = 52 - a + b by omega, show (k - 52).toNat = 0 by omega,
    Nat.pow_zero, Nat.mul_one]
  -- the scaled quotient `x · P / y` has 53 bits, and `y` is below the unit `P`
  have hP : 2 ^ (52 - a + b) = 2 ^ (52 - a) * 2 ^ b := Nat.pow_add _ _ _
  have hA : 2 ^ a * 2 ^ (52 - a) = 2 ^ 52 := by rw [← Nat.pow_add]; congr 1; omega
  generalize 2 ^ (52 - a + b) = P at hP ⊢
  have hF1 : y * 2 ^ 52 ≤ x * P := by
    rw [hP, ← hA]
    calc y * (2 ^ a * 2 ^ (52 - a)) = y * 2 ^ a * 2 ^ (52 - a) := by ring
      _ ≤ x * 2 ^ b * 2 ^ (52 - a) := Nat.mul_le_mul_right _ hI1
      _ = x * (2 ^ (52 - a) * 2 ^ b) := by ring
  have hF2 : x * P + 2 ^ (52 - a) ≤ y * 2 ^ 53 := by
    have h2 : (x * 2 ^ b + 1) * 2 ^ (52 - a) ≤ 2 * y * 2 ^ a * 2 ^ (52 - a) :=
      Nat.mul_le_mul_right _ hI2
    rw [hP, show 2 ^ 53 = 2 * 2 ^ 52 by norm_num, ← hA]
    nlinarith
  have hF3 : y < 2 ^ (52 - a) := by
    have h52 : (2 : Nat) ^ 32 ≤ 2 ^ 52 := Nat.pow_le_pow_right (by decide) (by decide)
    have hya : y * 2 ^ a < 2 ^ 52 := by
      -- either `y · 2 ^ a ≤ x` or `a = 0`
      rcases Nat.eq_zero_or_pos b with rfl | hb0
      · simp only [Nat.pow_zero, Nat.mul_one] at hI1
        omega
      · rw [show a = 0 by omega, Nat.pow_zero, Nat.mul_one]
        omega
    rw [← hA] at hya
    exact Nat.lt_of_mul_lt_mul_left (by rwa [Nat.mul_comm] at hya)
  have hPlo : 2 ^ (52 - a) ≤ P := by
    rw [hP]
    exact Nat.le_mul_of_pos_right _ (Nat.two_pow_pos b)
  -- the rounded significand `m` lies in `[q · P, (q + 1) · P)` and in `[2 ^ 52, 2 ^ 53)`
  obtain ⟨hmq, hmq'⟩ := roundHalfEven_window (x := x) hy0 (by omega : y < 2 * P)
  have hm52 : 2 ^ 52 ≤ roundHalfEven (x * P) y := by
    calc 2 ^ 52 = y * 2 ^ 52 / y := by rw [Nat.mul_comm, Nat.mul_div_cancel _ hy0]
      _ ≤ x * P / y := Nat.div_le_div_right hF1
      _ ≤ roundHalfEven (x * P) y := (roundHalfEven_bounds _ _).1
  have hm53 : roundHalfEven (x * P) y < 2 ^ 53 := by
    apply roundHalfEven_lt
    nlinarith
  have hqx : x / y < 2 ^ 53 := by
    have := Nat.div_le_self x y
    omega
  generalize roundHalfEven (x * P) y = m at hmq hmq' hm52 hm53 ⊢
  rw [if_neg (by omega)]
  -- the word is normal, with significand `m` and scale `k - 52`
  obtain ⟨hneg, hfin, hsig, hscale⟩ :=
    assemble_normal false hm52 hm53 (t := k - 52) (by omega) (by omega)
  apply floor_of_magnitudeFloor hfin hneg _ hqx
  rw [magnitudeFloor, scaleDown, hsig, hscale, if_neg (by omega),
    show (-(k - 52)).toNat = 52 - a + b by omega, Nat.pow_eq, Nat.pow_add, ← hP]
  exact Nat.div_eq_of_lt_le hmq hmq'

end Binary64

end Concatenative
