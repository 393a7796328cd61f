import Mathlib
import Concatenative.Numeric.Binary64

/-!
# Integers as binary64 words

A word stands for an integer when it is finite and has no fractional part; its integer part is
then its value. `Binary64.IsInt w n` says that `w` is the word of `n`, with the sign of `n`, so
that the word of zero is the positive zero. Every integer below `2 ^ 53` in magnitude has a word,
`Binary64.ofInt`, and it has only that one: the negative zero, the other word of zero, has the
wrong sign.

## Main results

* `Binary64.ofFields_fields` — a word is assembled from its sign, exponent and fraction.
* `Binary64.isInt_ofInt` — `ofInt n` is the word of `n`.
* `Binary64.IsInt.eq_ofInt` — the word of an integer is `ofInt` of it.
-/

namespace Concatenative

namespace Binary64

-- ---------------------------------------------------------------------------
-- Fields of an assembled word
-- ---------------------------------------------------------------------------

section Fields

variable (s : Bool) {e f : Nat} (he : e < 2048) (hf : f < 2 ^ 52)
include he hf

theorem toNat_ofFields :
    (ofFields s e f).bits.toNat = (if s then 2 ^ 63 else 0) + e * 2 ^ 52 + f := by
  simp only [ofFields, UInt64.toNat_ofNat', Nat.pow_eq]
  cases s <;> simp <;> omega

@[simp] theorem negative_ofFields : (ofFields s e f).negative = s := by
  simp only [negative, toNat_ofFields s he hf, Nat.pow_eq]
  cases s <;> simp <;> omega

@[simp] theorem exponent_ofFields : (ofFields s e f).exponent = e := by
  simp only [exponent, toNat_ofFields s he hf, Nat.pow_eq]
  cases s <;> simp <;> omega

@[simp] theorem fraction_ofFields : (ofFields s e f).fraction = f := by
  simp only [fraction, toNat_ofFields s he hf, Nat.pow_eq]
  cases s <;> simp <;> omega

end Fields

theorem exponent_lt (x : Binary64) : x.exponent < 2048 := by
  simp only [exponent, Nat.pow_eq]
  omega

theorem fraction_lt (x : Binary64) : x.fraction < 2 ^ 52 := by
  simp only [fraction, Nat.pow_eq]
  omega

/-- A word is the word of its sign, exponent and fraction. -/
theorem ofFields_fields (x : Binary64) : ofFields x.negative x.exponent x.fraction = x := by
  obtain ⟨b⟩ := x
  have hb := b.toNat_lt_size
  show (⟨(ofFields _ _ _).bits⟩ : Binary64) = ⟨b⟩
  congr 1
  apply UInt64.toNat_inj.mp
  rw [toNat_ofFields _ (exponent_lt _) (fraction_lt _)]
  simp only [exponent, fraction, Nat.pow_eq, UInt64.size] at hb ⊢
  -- the sign bit is the top bit
  cases hs : negative ⟨b⟩ <;> simp only [negative, Nat.pow_eq, decide_eq_true_eq,
    decide_eq_false_iff_not] at hs <;> simp <;> omega

-- ---------------------------------------------------------------------------
-- The word of an integer
-- ---------------------------------------------------------------------------

/-- `w` is the word of the integer `n`: finite, with no fractional part, `n` its integer part,
and the sign of `n`, so that the word of zero is the positive zero. -/
def IsInt (w : Binary64) (n : Int) : Prop :=
  w.isFinite = true ∧ w.isIntegral = true ∧ w.truncate = n ∧ w.negative = decide (n < 0)

/-- A positive integer below `2 ^ 53`, moved up until its leading bit is bit 52. -/
theorem shifted_bounds {m : Nat} (h0 : 0 < m) (h : m < 2 ^ 53) :
    m.log2 < 53 ∧ 2 ^ 52 ≤ m * 2 ^ (52 - m.log2) ∧ m * 2 ^ (52 - m.log2) < 2 ^ 53 := by
  have hL : m.log2 < 53 := (Nat.log2_lt (by omega)).mpr h
  have hsplit : ∀ k, 2 ^ (m.log2 + k) * 2 ^ (52 - m.log2) = 2 ^ (52 + k) := by
    intro k
    rw [← Nat.pow_add]
    congr 1
    omega
  refine ⟨hL, ?_, ?_⟩
  · calc 2 ^ 52 = 2 ^ (m.log2 + 0) * 2 ^ (52 - m.log2) := (hsplit 0).symm
      _ ≤ m * 2 ^ (52 - m.log2) := Nat.mul_le_mul_right _ (Nat.log2_self_le (by omega))
  · calc m * 2 ^ (52 - m.log2) < 2 ^ (m.log2 + 1) * 2 ^ (52 - m.log2) :=
          Nat.mul_lt_mul_of_pos_right Nat.lt_log2_self (Nat.two_pow_pos _)
      _ = 2 ^ 53 := hsplit 1

theorem ofExact_zero (s : Bool) (q : Int) : ofExact s 0 q = ofFields s 0 0 := by
  simp [ofExact]

/-- A positive integer below `2 ^ 53` is a normal word: its leading bit becomes the hidden bit
and the position of that bit its exponent. -/
theorem ofExact_int (s : Bool) {m : Nat} (h0 : 0 < m) (h : m < 2 ^ 53) :
    ofExact s m 0 = ofFields s (m.log2 + 1023) (m * 2 ^ (52 - m.log2) - 2 ^ 52) := by
  obtain ⟨hL, hlo, -⟩ := shifted_bounds h0 h
  have hshift : min (52 - m.log2) ((0 : Int) + 1074).toNat = 52 - m.log2 := by omega
  have hexp : ((0 : Int) - ((52 - m.log2 : Nat) : Int) + 1075).toNat = m.log2 + 1023 := by omega
  simp only [ofExact, Nat.pow_eq, if_neg (Nat.pos_iff_ne_zero.mp h0), hshift,
    if_neg (Nat.not_lt.mpr hlo), hexp]

theorem ofInt_eq (n : Int) : ofInt n = ofExact (decide (n < 0)) n.natAbs 0 := by
  unfold ofInt
  by_cases h : n < 0 <;> simp [h]

section Normal

variable (s : Bool) {m : Nat} (h0 : 0 < m) (h : m < 2 ^ 53)
include h0 h

theorem fields_ofExact_int : (ofExact s m 0).negative = s ∧
    (ofExact s m 0).exponent = m.log2 + 1023 ∧
    (ofExact s m 0).fraction = m * 2 ^ (52 - m.log2) - 2 ^ 52 := by
  obtain ⟨hL, hlo, hhi⟩ := shifted_bounds h0 h
  have he : m.log2 + 1023 < 2048 := by omega
  have hf : m * 2 ^ (52 - m.log2) - 2 ^ 52 < 2 ^ 52 := by omega
  rw [ofExact_int s h0 h]
  exact ⟨negative_ofFields s he hf, exponent_ofFields s he hf, fraction_ofFields s he hf⟩

theorem significand_ofExact_int : (ofExact s m 0).significand = m * 2 ^ (52 - m.log2) := by
  obtain ⟨-, hlo, -⟩ := shifted_bounds h0 h
  obtain ⟨-, he, hf⟩ := fields_ofExact_int s h0 h
  simp only [significand, he, hf, Nat.pow_eq]
  rw [if_neg (by omega)]
  omega

theorem scale_ofExact_int : (ofExact s m 0).scale = (m.log2 : Int) - 52 := by
  obtain ⟨-, he, -⟩ := fields_ofExact_int s h0 h
  simp only [scale, he]
  omega

theorem isFinite_ofExact_int : (ofExact s m 0).isFinite = true := by
  have hL := (shifted_bounds h0 h).1
  obtain ⟨-, he, -⟩ := fields_ofExact_int s h0 h
  simp only [isFinite, he, bne_iff_ne, ne_eq]
  omega

/-- The significand of the word of `m` is `m` shifted up by as many places as the scale takes
back, so its integer part is `m` and nothing is left over. -/
theorem magnitudeFloor_ofExact_int : (ofExact s m 0).magnitudeFloor = m ∧
    (ofExact s m 0).isIntegral = true := by
  have hL := (shifted_bounds h0 h).1
  simp only [magnitudeFloor, isIntegral, scaleDown, significand_ofExact_int s h0 h,
    scale_ofExact_int s h0 h, Nat.pow_eq]
  by_cases hq : m.log2 = 52
  · simp [hq]
  · have htoNat : (-((m.log2 : Int) - 52)).toNat = 52 - m.log2 := by omega
    have hneg : ¬ (0 : Int) ≤ (m.log2 : Int) - 52 := by omega
    simp only [hneg, if_false, htoNat, decide_false, Bool.false_or, beq_iff_eq]
    exact ⟨Nat.mul_div_cancel _ (Nat.two_pow_pos _), Nat.mul_mod_left _ _⟩

end Normal

/-- The positive zero is the word of zero. -/
theorem isInt_zero : (ofFields false 0 0).IsInt 0 := by
  have he : (0 : Nat) < 2048 := by decide
  have hf : (0 : Nat) < 2 ^ 52 := Nat.two_pow_pos _
  simp only [IsInt, isFinite, isIntegral, truncate, magnitudeFloor, scaleDown, significand,
    negative_ofFields false he hf, exponent_ofFields false he hf, fraction_ofFields false he hf]
  simp

/-- `ofInt n` is the word of `n`, for every integer below `2 ^ 53` in magnitude. -/
theorem isInt_ofInt {n : Int} (h : n.natAbs < 2 ^ 53) : (ofInt n).IsInt n := by
  rw [ofInt_eq]
  rcases Nat.eq_zero_or_pos n.natAbs with h0 | h0
  · obtain rfl : n = 0 := Int.natAbs_eq_zero.mp h0
    rw [Int.natAbs_zero, ofExact_zero]
    exact isInt_zero
  · obtain ⟨hfloor, hint⟩ := magnitudeFloor_ofExact_int (decide (n < 0)) h0 h
    have hneg := (fields_ofExact_int (decide (n < 0)) h0 h).1
    refine ⟨isFinite_ofExact_int _ h0 h, hint, ?_, hneg⟩
    simp only [truncate, hneg, hfloor, decide_eq_true_eq]
    split <;> omega

/-- A subnormal word with no fractional part is a zero. -/
theorem fraction_eq_zero_of_subnormal {w : Binary64} (he : w.exponent = 0)
    (hint : w.isIntegral = true) : w.fraction = 0 := by
  have hfr := fraction_lt w
  simp only [isIntegral, scale, significand, he, if_true, Nat.pow_eq, beq_iff_eq,
    Bool.or_eq_true, decide_eq_true_eq] at hint
  rcases hint with hint | hint
  · omega
  · -- the fraction is below the `2 ^ 1074` it would have to be a multiple of
    generalize hK : (-(-1074 : Int)).toNat = K at hint
    have hsmall : w.fraction < 2 ^ K :=
      Nat.lt_of_lt_of_le hfr (Nat.pow_le_pow_right (by decide) (by omega))
    rwa [Nat.mod_eq_of_lt hsmall] at hint

/-- A normal word with no fractional part and an integer part below `2 ^ 53` is that integer
part shifted up by `T ≤ 52` places, with exponent `1075 - T`. -/
theorem integral_normal {w : Binary64} (he : w.exponent ≠ 0) (hint : w.isIntegral = true)
    (hlt : w.magnitudeFloor < 2 ^ 53) :
    ∃ T, T ≤ 52 ∧ w.exponent + T = 1075 ∧ w.magnitudeFloor * 2 ^ T = 2 ^ 52 + w.fraction := by
  have hfr := fraction_lt w
  have hsig : w.significand = 2 ^ 52 + w.fraction := by simp [significand, he]
  have hscale : w.scale = (w.exponent : Int) - 1075 := by simp [scale, he]
  generalize hmag : w.magnitudeFloor = M at hlt ⊢
  simp only [magnitudeFloor, scaleDown, hsig, hscale, Nat.pow_eq] at hmag
  simp only [isIntegral, hsig, hscale, Nat.pow_eq, Bool.or_eq_true, decide_eq_true_eq,
    beq_iff_eq] at hint
  by_cases hq : (0 : Int) ≤ (w.exponent : Int) - 1075
  · rw [if_pos hq] at hmag
    obtain ⟨k, hk⟩ : ∃ k, ((w.exponent : Int) - 1075).toNat = k := ⟨_, rfl⟩
    rw [hk] at hmag
    cases k with
    | zero => exact ⟨0, by omega, by omega, by simp at hmag; omega⟩
    | succ k =>
      -- a scale above one would double the significand past `2 ^ 53`
      have hdouble : (2 ^ 52 + w.fraction) * 2 ≤ (2 ^ 52 + w.fraction) * 2 ^ (k + 1) := by
        apply Nat.mul_le_mul_left
        rw [Nat.pow_succ]
        have := Nat.one_le_two_pow (n := k)
        omega
      omega
  · rw [if_neg hq] at hmag
    obtain ⟨T, hTdef⟩ : ∃ T, (-((w.exponent : Int) - 1075)).toNat = T := ⟨_, rfl⟩
    rw [hTdef] at hmag hint
    have hmod : (2 ^ 52 + w.fraction) % 2 ^ T = 0 := by
      rcases hint with hint | hint
      · exact absurd hint hq
      · exact hint
    -- a multiple of `2 ^ T` that is not zero is at least `2 ^ T`
    have hT : T ≤ 52 := by
      apply Nat.le_of_not_lt
      intro hbig
      have hlt : 2 ^ 52 + w.fraction < 2 ^ T :=
        Nat.lt_of_lt_of_le (by omega) (Nat.pow_le_pow_right (by decide) (by omega : 53 ≤ T))
      rw [Nat.mod_eq_of_lt hlt] at hmod
      omega
    refine ⟨T, hT, by omega, ?_⟩
    rw [← hmag]
    exact Nat.div_mul_cancel (Nat.dvd_of_mod_eq_zero hmod)

/-- The word of an integer below `2 ^ 53` in magnitude is `ofInt` of it: a finite word with no
fractional part is determined by its integer part and its sign. -/
theorem IsInt.eq_ofInt {w : Binary64} {n : Int} (hw : w.IsInt n) (h : n.natAbs < 2 ^ 53) :
    w = ofInt n := by
  obtain ⟨-, hint, htr, hneg⟩ := hw
  have hmag : w.magnitudeFloor = n.natAbs := by
    simp only [truncate] at htr
    split at htr <;> omega
  rw [← ofFields_fields w, ofInt_eq, ← hneg]
  by_cases he : w.exponent = 0
  · -- a subnormal word with no fractional part is a zero
    have hf0 := fraction_eq_zero_of_subnormal he hint
    have hn0 : n.natAbs = 0 := by
      rw [← hmag]
      simp only [magnitudeFloor, scaleDown, significand, he, hf0, if_true, Nat.zero_mul,
        Nat.zero_div, ite_self]
    rw [he, hf0, hn0, ofExact_zero]
  · -- a normal word: its significand is the integer moved up to bit 52
    have hfr := fraction_lt w
    obtain ⟨T, hT, he', hM⟩ := integral_normal he hint (by rw [hmag]; exact h)
    rw [hmag] at hM
    have hn0 : n.natAbs ≠ 0 := by
      intro h0
      rw [h0, Nat.zero_mul] at hM
      omega
    have hlow : 2 ^ (52 - T) * 2 ^ T = 2 ^ 52 := by
      rw [← Nat.pow_add, Nat.sub_add_cancel hT]
    have hhigh : 2 ^ (52 - T + 1) * 2 ^ T = 2 ^ 53 := by
      rw [← Nat.pow_add, Nat.add_right_comm, Nat.sub_add_cancel hT]
    -- the integer's leading bit is bit `52 - T`
    have hlog : n.natAbs.log2 = 52 - T := by
      refine (Nat.log2_eq_iff hn0).mpr ⟨?_, ?_⟩
      · apply Nat.le_of_mul_le_mul_right _ (Nat.two_pow_pos T)
        rw [hlow, hM]
        omega
      · apply Nat.lt_of_mul_lt_mul_right (a := 2 ^ T)
        rw [hhigh, hM]
        omega
    have hexp : 52 - T + 1023 = w.exponent := by omega
    have hfrac : 2 ^ 52 + w.fraction - 2 ^ 52 = w.fraction := by omega
    rw [ofExact_int _ (Nat.pos_of_ne_zero hn0) h, hlog, show 52 - (52 - T) = T by omega, hM,
      hexp, hfrac]

end Binary64

end Concatenative
