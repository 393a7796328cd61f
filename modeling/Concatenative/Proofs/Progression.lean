import Concatenative.Proofs.Exactness
import Concatenative.Proofs.Invoking

/-!
# `range` pushes an arithmetic progression

`start end step range` counts how many whole steps fit between `start` and `end`, by a rounded
float division and a floor, and pushes that many numbers from `start` toward `end`, each one a
step's magnitude after the one before, by repeated float addition. On integers below `2 ^ 31` in
magnitude every one of these operations is exact: the difference, its magnitude, the direction
and the step are integers below `2 ^ 53`, the floor of the rounded quotient is the integer
quotient (`Binary64.floor_roundRatio`), and every partial sum stays between `start` and `end`.
So the values are exactly the integers `a + i · sgn (b - a) · |s|` for `i < ⌊|b - a| / |s|⌋`,
each in `[a, b)` or `(b, a]`, unless there are more than `2 ^ 24` of them
(`Range.values_ofInt`).

## Main results

* `progression_ofInt` — repeated exact additions give the progression's integers.
* `Range.values_ofInt` — the values of `range` on integer operands.
* `range_pushes_progression` — what invoking `range` does: the progression pushed, too many
  values, a zero step, and operands that are not numbers.
-/

namespace Concatenative

open Binary64

-- ---------------------------------------------------------------------------
-- Repeated addition
-- ---------------------------------------------------------------------------

/-- The loop of `progression`, from the `j`-th value on: while every partial sum is below
`2 ^ 53`, each addition is exact. -/
theorem progression_go_ofInt {a d : Int} (hd : d.natAbs < 2 ^ 53) :
    ∀ (n j : Nat) (acc : Array Binary64),
      (∀ i ≤ n, (a + ((j + i : Nat) : Int) * d).natAbs < 2 ^ 53) →
      (progression.go (ofInt d) n (ofInt (a + (j : Int) * d)) acc).toList =
        acc.toList ++ (List.range n).map fun i => ofInt (a + ((j + i : Nat) : Int) * d) := by
  intro n
  induction n with
  | zero =>
    intro j acc _
    simp [progression.go]
  | succ n ih =>
    intro j acc hb
    have hj : (a + (j : Int) * d).natAbs < 2 ^ 53 := by simpa using hb 0 (by omega)
    have hj1 : (a + ((j + 1 : Nat) : Int) * d).natAbs < 2 ^ 53 := hb 1 (by omega)
    have hstep : (ofInt (a + (j : Int) * d)).add (ofInt d) = ofInt (a + ((j + 1 : Nat) : Int) * d) := by
      have hsum : a + (j : Int) * d + d = a + ((j + 1 : Nat) : Int) * d := by push_cast; ring
      rw [add_ofInt hj hd (by rwa [hsum]), hsum]
    -- the next value is pushed, and the loop goes on from the `j + 1`-th
    rw [progression.go, hstep, ih (j + 1) _ (fun i hi => by
      have := hb (i + 1) (by omega)
      rwa [show j + (i + 1) = j + 1 + i by omega] at this), Array.toList_push, List.append_assoc,
      List.range_succ_eq_map, List.map_cons, List.map_map, List.singleton_append]
    congr 1
    refine List.cons_eq_cons.mpr ⟨by simp, List.map_congr_left fun i _ => ?_⟩
    simp only [Function.comp_apply]
    congr 3
    omega

/-- **Repeated exact addition.** While every partial sum is below `2 ^ 53` in magnitude,
`progression` gives the words of `a + i · d` for `i < c`. -/
theorem progression_ofInt {a d : Int} {c : Nat} (hd : d.natAbs < 2 ^ 53)
    (hb : ∀ i ≤ c, (a + (i : Int) * d).natAbs < 2 ^ 53) :
    progression (ofInt a) (ofInt d) c = (List.range c).map fun i : Nat => ofInt (a + i * d) := by
  have h := progression_go_ofInt hd c 0 #[] (by simpa using hb)
  simp only [Nat.cast_zero, zero_mul, add_zero, zero_add] at h
  rw [progression, h, List.nil_append]

-- ---------------------------------------------------------------------------
-- The values of `range`
-- ---------------------------------------------------------------------------

namespace Range

/-- **The values of `range` on integers.** For integers `a`, `b` and a non-zero `s` below `2 ^ 31`
in magnitude, with `c = ⌊|b - a| / |s|⌋`: more than `2 ^ 24` values is an error at the step, and
otherwise the values are the words of `a + i · (±|s|)` for `i < c`, the sign that of `b - a`
(positive when they are equal). -/
theorem values_ofInt {caller start stop step : Token} {a b s : Int}
    (ha : start.value = .number (ofInt a)) (hb : stop.value = .number (ofInt b))
    (hs : step.value = .number (ofInt s))
    (ha' : a.natAbs < 2 ^ 31) (hb' : b.natAbs < 2 ^ 31) (hs' : s.natAbs < 2 ^ 31) (hs0 : s ≠ 0) :
    values caller start stop step =
      if rangeLimit < (b - a).natAbs / s.natAbs then
        .error ⟨.rangeTooLong (ofInt ((b - a).natAbs / s.natAbs : Nat)), step.span⟩
      else
        .ok ((List.range ((b - a).natAbs / s.natAbs)).map fun i : Nat =>
          ofInt (a + i * ((if b - a < 0 then -1 else 1) * s.natAbs))) := by
  have hsa : (s.natAbs : Int).natAbs < 2 ^ 53 := by rw [Int.natAbs_natCast]; omega
  have hda : ((b - a).natAbs : Int).natAbs < 2 ^ 53 := by rw [Int.natAbs_natCast]; omega
  obtain ⟨hfa, -, -, -⟩ := isInt_ofInt (n := a) (by omega)
  obtain ⟨hfb, -, -, -⟩ := isInt_ofInt (n := b) (by omega)
  obtain ⟨hfs, hsi, hst, hsn⟩ := isInt_ofInt hsa
  obtain ⟨hfd, hdi, hdt, hdn⟩ := isInt_ofInt hda
  -- the count: the floor of the rounded quotient of the distance by the stride
  generalize hc : (b - a).natAbs / s.natAbs = c
  have hsteps : ((ofInt ((b - a).natAbs : Int)).div (ofInt (s.natAbs : Int))).floor = ofInt c := by
    rw [div_of_integral hfd hdi hfs hsi (by rw [hst]; omega), hdn, hsn,
      magnitudeFloor_ofInt hda, magnitudeFloor_ofInt hsa]
    simp only [Int.natAbs_natCast, Int.natCast_nonneg, not_lt.mpr, decide_false, bne_self_eq_false]
    rw [floor_roundRatio (by omega) (by omega) (by omega), hc]
  have hc' : c ≤ (b - a).natAbs := hc ▸ Nat.div_le_self _ _
  -- the step: the stride with the direction of `b - a`
  generalize hsgn : (if b - a < 0 then -1 else 1 : Int) = sgn
  have hsgn' : sgn = -1 ∨ sgn = 1 := by
    rw [← hsgn]
    split <;> simp
  have habs : (sgn * s.natAbs).natAbs = s.natAbs := by
    rcases hsgn' with rfl | rfl <;>
      simp only [Int.natAbs_mul, Int.natAbs_neg, Int.natAbs_one, Int.natAbs_natCast, Nat.one_mul]
  have hstep : ((ofInt (b - a)).signum).mul (ofInt (s.natAbs : Int)) = ofInt (sgn * s.natAbs) := by
    rw [signum_ofInt (by omega), hsgn, mul_ofInt (by rcases hsgn' with rfl | rfl <;> decide) hsa
      (by rw [habs]; omega) (Int.natAbs_ne_zero.mp (by rw [habs]; omega))]
  -- every partial sum lies within `|a| + |b - a| + |s|`
  have hprog : progression (ofInt a) (ofInt (sgn * s.natAbs)) c =
      (List.range c).map fun i : Nat => ofInt (a + i * (sgn * s.natAbs)) := by
    apply progression_ofInt (by rw [habs]; omega)
    intro i hi
    have hmul : i * s.natAbs ≤ (b - a).natAbs :=
      (Nat.le_div_iff_mul_le (Int.natAbs_pos.mpr hs0)).mp (by rw [hc]; exact hi)
    rcases hsgn' with rfl | rfl
    · rw [show (i : Int) * (-1 * s.natAbs) = -((i * s.natAbs : Nat) : Int) by push_cast; ring]
      omega
    · rw [show (i : Int) * (1 * s.natAbs) = ((i * s.natAbs : Nat) : Int) by push_cast; ring]
      omega
  simp only [values, operand, ha, hb, hs, bind, Except.bind, hfa, hfb, Bool.not_true,
    Bool.or_self, Bool.false_eq_true, if_false, abs_ofInt (by omega : s.natAbs < 2 ^ 53),
    isZero_of_truncate_ne_zero (by rw [hst]; omega), hfs,
    sub_ofInt (u := b) (v := a) (by omega) (by omega) (by omega), abs_ofInt (by omega : (b - a).natAbs < 2 ^ 53),
    hsteps, ofNat_eq_ofInt (by decide : rangeLimit < 2 ^ 53),
    lt_ofInt (by decide : rangeLimit < 2 ^ 53) (by omega : c < 2 ^ 53),
    hstep, magnitudeFloor_ofInt (by omega : (c : Int).natAbs < 2 ^ 53), Int.natAbs_natCast, hprog]
  by_cases hlim : rangeLimit < c
  · rw [if_pos (decide_eq_true hlim), if_pos hlim]
    rfl
  · rw [if_neg (by simpa using hlim), if_neg hlim]
    rfl

/-- A zero step is refused, as a step or, before that, for an operand that is not finite. -/
theorem values_zero_step {caller start stop step : Token} {x y z : Binary64}
    (hx : start.value = .number x) (hy : stop.value = .number y) (hz : step.value = .number z)
    (hzero : z.isZero = true) :
    values caller start stop step =
      .error (if x.isFinite && y.isFinite then ⟨.rangeBadStep, step.span⟩
        else ⟨.rangeNotFinite, caller.span⟩) := by
  have habs : z.abs.isZero = true := by
    rw [← hzero, Binary64.abs]
    simp only [isZero, exponent_ofFields false (exponent_lt z) (fraction_lt z),
      fraction_ofFields false (exponent_lt z) (fraction_lt z)]
  simp only [values, operand, hx, hy, hz, bind, Except.bind, habs, Bool.true_or, if_true]
  cases x.isFinite <;> cases y.isFinite <;> rfl

theorem operand_of_number {t : Token} {x : Binary64} (which : String)
    (h : t.value = .number x) : operand t which = .ok x := by
  simp [operand, h]

theorem operand_of_not_number {t : Token} (which : String) (h : ∀ x, t.value ≠ .number x) :
    operand t which = .error ⟨.rangeOperand which, t.span⟩ := by
  unfold operand
  split
  · rename_i x hv
    exact absurd hv (h x)
  · rfl

/-- The operands are checked in order: a start, an end and a step that are numbers. -/
theorem values_operands (caller start stop step : Token) :
    ((∀ x, start.value ≠ .number x) →
      values caller start stop step = .error ⟨.rangeOperand "start", start.span⟩) ∧
    (∀ x, start.value = .number x → (∀ y, stop.value ≠ .number y) →
      values caller start stop step = .error ⟨.rangeOperand "end", stop.span⟩) ∧
    (∀ x y, start.value = .number x → stop.value = .number y → (∀ z, step.value ≠ .number z) →
      values caller start stop step = .error ⟨.rangeOperand "step", step.span⟩) := by
  refine ⟨fun hx => ?_, fun x hx hy => ?_, fun x y hx hy hz => ?_⟩
  · simp only [values, operand_of_not_number "start" hx]
    rfl
  · simp only [values, operand_of_number "start" hx, operand_of_not_number "end" hy]
    rfl
  · simp only [values, operand_of_number "start" hx, operand_of_number "end" hy,
      operand_of_not_number "step" hz]
    rfl

end Range

-- ---------------------------------------------------------------------------
-- Invoking `range`
-- ---------------------------------------------------------------------------

namespace Evaluation

/-- `range` takes its three operands and pushes its values, or fails with the stack below them. -/
theorem invoke_range (fuel : Nat) (caller : Token) {m : Machine} {S : List Token}
    {start stop step : Token} (hs : m.stack.toList = S ++ [start, stop, step]) :
    (invoke (fuel + 1) (Operator.builtin (.primitive .range)) caller).run.run m =
      match Range.values caller start stop step with
      | .ok xs =>
        (.ok (), { m with stack := Stack.ofList (S ++ xs.map fun x => Token.symbol (.number x)) })
      | .error e => (.error e, { m with stack := Stack.ofList S }) := by
  rw [invoke_fixed fuel caller rfl (by rfl) hs]
  simp only [Primitive.act]
  cases Range.values caller start stop step with
  | error e => rfl
  | ok xs =>
    simp only [Exec.run_pure]
    rw [← Stack.ofList_toList ((Stack.ofList S).pushAll _), Stack.toList_pushAll,
      Stack.toList_ofList]

end Evaluation

-- ---------------------------------------------------------------------------
-- `range` on integers
-- ---------------------------------------------------------------------------

/-- Where there are values, `b ≠ a`, and the direction is the sign of `b - a`. -/
theorem direction_eq_sign {a b : Int} {s : Nat} (h : 0 < (b - a).natAbs / s) :
    (if b - a < 0 then -1 else 1 : Int) = (b - a).sign := by
  have hne : b - a ≠ 0 := by
    intro h0
    rw [h0, Int.natAbs_zero, Nat.zero_div] at h
    exact Nat.lt_irrefl 0 h
  rcases lt_or_gt_of_ne hne with hlt | hgt
  · rw [if_pos hlt, Int.sign_eq_neg_one_of_neg hlt]
  · rw [if_neg (by omega), Int.sign_eq_one_of_pos hgt]

/-- The `i`-th value of a progression of `c = ⌊|b - a| / |s|⌋` values lies between `a` and `b`,
at `a` but short of `b`. -/
theorem progression_within {a b s : Int} {i : Nat} (hi : i < (b - a).natAbs / s.natAbs) :
    (a < b → a ≤ a + i * (b - a).sign * s.natAbs ∧ a + i * (b - a).sign * s.natAbs < b) ∧
    (b < a → b < a + i * (b - a).sign * s.natAbs ∧ a + i * (b - a).sign * s.natAbs ≤ a) := by
  have hs : 0 < s.natAbs := by
    rcases Nat.eq_zero_or_pos s.natAbs with h0 | h0
    · rw [h0, Nat.div_zero] at hi
      exact absurd hi (Nat.not_lt_zero _)
    · exact h0
  -- `i + 1` steps still fit in the distance
  have hfit : (i + 1) * s.natAbs ≤ (b - a).natAbs := (Nat.le_div_iff_mul_le hs).mp hi
  rw [Nat.succ_mul] at hfit
  have hcast : ((i * s.natAbs : Nat) : Int) = (i : Int) * s.natAbs := by push_cast; ring
  refine ⟨fun hab => ?_, fun hba => ?_⟩
  · rw [Int.sign_eq_one_of_pos (by omega), Int.mul_one, ← hcast]
    omega
  · rw [Int.sign_eq_neg_one_of_neg (by omega), show (i : Int) * -1 * s.natAbs =
      -((i * s.natAbs : Nat) : Int) by rw [hcast]; ring]
    omega

open Evaluation in
/-- **`range` pushes the arithmetic progression from the start toward the end.** For integers
`a`, `b` and a non-zero `s` below `2 ^ 31` in magnitude, let `c = ⌊|b - a| / |s|⌋`. If
`c ≤ 2 ^ 24`, `a b s range` succeeds and pushes exactly the `c` numbers
`a + i · sgn (b - a) · |s|` for `i < c`, in that order, each in `[a, b)` or `(b, a]`, and none
when `a = b`; otherwise it fails with a contract violation at the step and pushes nothing. A zero
step is a contract violation, and an operand that is not a number a type mismatch at it, the
start checked first, then the end, then the step. -/
theorem range_pushes_progression :
    (∀ (fuel : Nat) (caller start stop step : Token) (S : List Token) (m : Machine) (a b s : Int),
      start.value = .number (ofInt a) → stop.value = .number (ofInt b) →
      step.value = .number (ofInt s) → m.stack.toList = S ++ [start, stop, step] →
      a.natAbs < 2 ^ 31 → b.natAbs < 2 ^ 31 → s.natAbs < 2 ^ 31 → s ≠ 0 →
      ((b - a).natAbs / s.natAbs ≤ 2 ^ 24 →
        (invoke (fuel + 1) (Operator.builtin (.primitive .range)) caller).run.run m =
          (.ok (), { m with stack := Stack.ofList (S ++ (List.range ((b - a).natAbs / s.natAbs)).map
            fun i : Nat => Token.symbol (.number (ofInt (a + i * (b - a).sign * s.natAbs)))) })) ∧
      (2 ^ 24 < (b - a).natAbs / s.natAbs →
        (invoke (fuel + 1) (Operator.builtin (.primitive .range)) caller).run.run m =
          (.error ⟨.rangeTooLong (ofInt ((b - a).natAbs / s.natAbs : Nat)), step.span⟩,
            { m with stack := Stack.ofList S })) ∧
      (∀ i < (b - a).natAbs / s.natAbs,
        (a < b → a ≤ a + i * (b - a).sign * s.natAbs ∧ a + i * (b - a).sign * s.natAbs < b) ∧
        (b < a → b < a + i * (b - a).sign * s.natAbs ∧ a + i * (b - a).sign * s.natAbs ≤ a)) ∧
      (a = b → (b - a).natAbs / s.natAbs = 0)) ∧
    (∀ (fuel : Nat) (caller start stop step : Token) (S : List Token) (m : Machine)
      (x y z : Binary64), start.value = .number x → stop.value = .number y →
      step.value = .number z → m.stack.toList = S ++ [start, stop, step] → z.isZero = true →
      ∃ e : Error, (invoke (fuel + 1) (Operator.builtin (.primitive .range)) caller).run.run m =
        (.error e, { m with stack := Stack.ofList S }) ∧ e.code = .contractViolation) ∧
    (∀ (fuel : Nat) (caller start stop step : Token) (S : List Token) (m : Machine),
      m.stack.toList = S ++ [start, stop, step] →
      ((∀ x, start.value ≠ .number x) →
        (invoke (fuel + 1) (Operator.builtin (.primitive .range)) caller).run.run m =
          (.error ⟨.rangeOperand "start", start.span⟩, { m with stack := Stack.ofList S })) ∧
      (∀ x, start.value = .number x → (∀ y, stop.value ≠ .number y) →
        (invoke (fuel + 1) (Operator.builtin (.primitive .range)) caller).run.run m =
          (.error ⟨.rangeOperand "end", stop.span⟩, { m with stack := Stack.ofList S })) ∧
      (∀ x y, start.value = .number x → stop.value = .number y → (∀ z, step.value ≠ .number z) →
        (invoke (fuel + 1) (Operator.builtin (.primitive .range)) caller).run.run m =
          (.error ⟨.rangeOperand "step", step.span⟩, { m with stack := Stack.ofList S }))) ∧
    (∀ (w : String) (c : Binary64),
      (Fault.rangeOperand w).code = .typeMismatch ∧ (Fault.rangeTooLong c).code = .contractViolation) := by
  refine ⟨?_, ?_, ?_, fun w c => ⟨rfl, rfl⟩⟩
  · intro fuel caller start stop step S m a b s ha hb hs hstack ha' hb' hs' hs0
    have hinv := invoke_range fuel caller hstack
    rw [Range.values_ofInt ha hb hs ha' hb' hs' hs0] at hinv
    have hlimit : rangeLimit = 2 ^ 24 := by simp [rangeLimit]
    refine ⟨fun hle => ?_, fun hgt => ?_, fun i hi => progression_within hi, fun hab => ?_⟩
    · rw [hinv, if_neg (by omega)]
      dsimp only
      rw [List.map_map]
      congr 4
      apply List.map_congr_left
      intro i hi
      have hpos : 0 < (b - a).natAbs / s.natAbs := Nat.lt_of_le_of_lt (Nat.zero_le i)
        (List.mem_range.mp hi)
      simp only [Function.comp_apply, direction_eq_sign hpos, Int.mul_assoc]
    · rw [hinv, if_pos (by omega)]
    · rw [hab, Int.sub_self, Int.natAbs_zero, Nat.zero_div]
  · intro fuel caller start stop step S m x y z hx hy hz hstack hzero
    rw [invoke_range fuel caller hstack, Range.values_zero_step hx hy hz hzero]
    exact ⟨_, rfl, by split <;> rfl⟩
  · intro fuel caller start stop step S m hstack
    obtain ⟨hfirst, hsecond, hthird⟩ := Range.values_operands caller start stop step
    refine ⟨fun hx => ?_, fun x hx hy => ?_, fun x y hx hy hz => ?_⟩
    · rw [invoke_range fuel caller hstack, hfirst hx]
    · rw [invoke_range fuel caller hstack, hsecond x hx hy]
    · rw [invoke_range fuel caller hstack, hthird x y hx hy hz]

end Concatenative
