import Concatenative.Proofs.Integers
import Concatenative.Proofs.Invoking

/-!
# Exclusive or on 32-bit words

`xor` reads each operand as a 32-bit two's-complement word: the integer part of a finite number
modulo `2 ^ 32`, and zero for NaN and the infinities (`Binary64.toWord32`, on integers the
`ToInt32` of ECMAScript). It takes the two words' exclusive or bit by bit and pushes that word
read back as a signed integer, which lies in `[-2 ^ 31, 2 ^ 31)` and so is held exactly.

Everything follows from one equation, `Binary.xorWords_eq`: the result is `ofInt` of the signed
reading of the exclusive or in `BitVec 32`. The result's own word is that exclusive or again
(`Binary.toWord32_xorWords`), so the laws of `^^^` carry over to numbers: `xor` is commutative
and associative, `x xor x` is zero, and an operand may move by any multiple of `2 ^ 32`. Zero is
an identity only on the integers of the signed 32-bit range: `2 ^ 32 + 1` xor `0` is `1`.

## Main results

* `Binary.xorWords_eq` — the value of `xor` through `BitVec 32`.
* `xor_is_word_xor` — what `a b xor` pushes, and the laws it obeys.
* `xor_zero_wraps` — zero is no identity beyond the 32-bit range.
-/

namespace Concatenative

namespace Binary64

/-- The 32-bit two's-complement word of a number: its integer part modulo `2 ^ 32`, and zero for
NaN and the infinities. -/
def toWord32 (x : Binary64) : BitVec 32 :=
  if x.isFinite then BitVec.ofInt 32 x.truncate else 0

theorem word32_eq_toNat (x : Binary64) : x.word32 = x.toWord32.toNat := by
  unfold word32 toWord32
  split
  · rw [BitVec.toNat_ofInt]
  · rfl

/-- `signed32` is the signed reading of a 32-bit word. -/
theorem signed32_toNat (u : BitVec 32) : signed32 u.toNat = u.toInt := by
  have hu := u.isLt
  rw [signed32, BitVec.toInt_eq_toNat_cond]
  simp only [Nat.pow_eq]
  split <;> split <;> omega

theorem toWord32_of_isInt {w : Binary64} {n : Int} (hw : w.IsInt n) :
    w.toWord32 = BitVec.ofInt 32 n := by
  rw [toWord32, if_pos hw.1, hw.2.2.1]

theorem toWord32_of_not_isFinite {x : Binary64} (hx : x.isFinite = false) : x.toWord32 = 0#32 := by
  rw [toWord32, if_neg (by simp [hx])]
  rfl

/-- Moving the integer part by a multiple of `2 ^ 32` keeps the word. -/
theorem toWord32_shift {x x' : Binary64} (hx : x.isFinite = true) (hx' : x'.isFinite = true)
    {k : Int} (h : x'.truncate = x.truncate + k * 2 ^ 32) : x'.toWord32 = x.toWord32 := by
  rw [toWord32, toWord32, if_pos hx', if_pos hx, h]
  apply BitVec.eq_of_toNat_eq
  rw [BitVec.toNat_ofInt, BitVec.toNat_ofInt]
  congr 1
  exact Int.add_mul_emod_self_right _ _ _

/-- A signed 32-bit integer is held exactly. -/
theorem natAbs_toInt_lt (u : BitVec 32) : u.toInt.natAbs < 2 ^ 53 := by
  have hlt : u.toInt < 2 ^ 31 := BitVec.toInt_lt
  have hle : -2 ^ 31 ≤ u.toInt := BitVec.le_toInt u
  omega

end Binary64

namespace Binary

open Binary64

/-- `xor` is the exclusive or of the operands' 32-bit words, read back as a signed integer. -/
theorem xorWords_eq (x y : Binary64) :
    xorWords x y = ofInt (x.toWord32 ^^^ y.toWord32).toInt := by
  rw [xorWords, word32_eq_toNat, word32_eq_toNat, ← BitVec.toNat_xor, signed32_toNat]

theorem isInt_xorWords (x y : Binary64) :
    (xorWords x y).IsInt (x.toWord32 ^^^ y.toWord32).toInt := by
  rw [xorWords_eq]
  exact isInt_ofInt (natAbs_toInt_lt _)

/-- The word of a result is the exclusive or itself: reading it back loses nothing. -/
theorem toWord32_xorWords (x y : Binary64) :
    (xorWords x y).toWord32 = x.toWord32 ^^^ y.toWord32 := by
  rw [toWord32_of_isInt (isInt_xorWords x y), BitVec.ofInt_toInt]

theorem xorWords_congr {x x' y y' : Binary64} (hx : x'.toWord32 = x.toWord32)
    (hy : y'.toWord32 = y.toWord32) : xorWords x' y' = xorWords x y := by
  rw [xorWords_eq, xorWords_eq, hx, hy]

theorem xorWords_comm (x y : Binary64) : xorWords x y = xorWords y x := by
  rw [xorWords_eq, xorWords_eq, BitVec.xor_comm]

theorem xorWords_assoc (x y z : Binary64) :
    xorWords (xorWords x y) z = xorWords x (xorWords y z) := by
  rw [xorWords_eq (xorWords x y) z, xorWords_eq x (xorWords y z), toWord32_xorWords,
    toWord32_xorWords, BitVec.xor_assoc]

theorem xorWords_self (x : Binary64) : xorWords x x = ofInt 0 := by
  rw [xorWords_eq, BitVec.xor_self, BitVec.toInt_zero]

theorem toWord32_ofInt_zero : (ofInt 0).toWord32 = 0#32 :=
  toWord32_of_isInt (isInt_ofInt (by decide))

/-- Zero gives back an integer of the signed 32-bit range, and only such an integer, as the very
same word. -/
theorem xorWords_zero {x : Binary64} {n : Int} (hx : x.IsInt n) (lo : -2 ^ 31 ≤ n)
    (hi : n < 2 ^ 31) : xorWords x (ofInt 0) = x := by
  have hn : n.natAbs < 2 ^ 53 := by omega
  rw [xorWords_eq, toWord32_ofInt_zero, BitVec.xor_zero, toWord32_of_isInt hx,
    BitVec.toInt_ofInt, Int.bmod_eq_of_le_mul_two (by omega) (by omega)]
  exact (hx.eq_ofInt hn).symm

/-- The value of `xor` on two number tokens. -/
theorem apply_xor {a b : Token} {x y : Binary64} (ha : a.value = .number x)
    (hb : b.value = .number y) : Binary.xor.apply a b = .ok (.number (xorWords x y)) := by
  simp only [apply, operands, operand, ha, hb]
  rfl

end Binary

namespace Evaluation

/-- An operator of two operands on top of the stack replaces them by its value. -/
theorem invoke_binary {op : Binary} {a b : Token} {v : Value} (h : op.apply a b = .ok v)
    (fuel : Nat) (caller : Token) {m : Machine} {S : List Token}
    (hs : m.stack.toList = S ++ [a, b]) :
    (invoke (fuel + 1) (Operator.builtin (.primitive (.binary op))) caller).run.run m =
      (.ok (), { m with stack := Stack.ofList (S ++ [Token.symbol v]) }) := by
  rw [invoke_fixed fuel caller rfl (by rfl) hs]
  simp only [Primitive.act, h, Exec.run_pure]
  rw [← Stack.ofList_toList ((Stack.ofList S).pushAll [Token.symbol v]), Stack.toList_pushAll,
    Stack.toList_ofList]

end Evaluation

open Binary64 Binary in
/-- **`xor` is the exclusive or of 32-bit two's-complement words.** With numbers `x` and `y` on
top of the stack, `xor` replaces them by `x xor y`. For finite `x` and `y` that is the integer
`r` whose signed 32-bit word is the exclusive or of their integer parts modulo `2 ^ 32`: `r` lies
in `[-2 ^ 31, 2 ^ 31)` and the result is the word of `r`. NaN and the infinities count as zero.
Hence `xor` is commutative and associative, `x xor x` is zero, and an operand may move by any
multiple of `2 ^ 32`; zero is an identity on the integers of the signed 32-bit range. -/
theorem xor_is_word_xor :
    (∀ (fuel : Nat) (caller a b : Token) (x y : Binary64) (S : List Token) (m : Machine),
      a.value = .number x → b.value = .number y → m.stack.toList = S ++ [a, b] →
      (Evaluation.invoke (fuel + 1) (Operator.builtin (.primitive (.binary .xor))) caller).run.run
          m =
        (.ok (), { m with stack := Stack.ofList (S ++ [Token.symbol (.number (xorWords x y))]) })) ∧
    (∀ x y : Binary64, x.isFinite = true → y.isFinite = true →
      let r := (BitVec.ofInt 32 x.truncate ^^^ BitVec.ofInt 32 y.truncate).toInt;
      -2 ^ 31 ≤ r ∧ r < 2 ^ 31 ∧ (xorWords x y).IsInt r) ∧
    (∀ x y : Binary64, x.isFinite = false →
      xorWords x y = xorWords (ofInt 0) y ∧ xorWords y x = xorWords y (ofInt 0)) ∧
    (∀ x y : Binary64, xorWords x y = xorWords y x) ∧
    (∀ x y z : Binary64, xorWords (xorWords x y) z = xorWords x (xorWords y z)) ∧
    (∀ x : Binary64, xorWords x x = ofInt 0) ∧
    (∀ (x : Binary64) (n : Int), x.IsInt n → -2 ^ 31 ≤ n → n < 2 ^ 31 →
      xorWords x (ofInt 0) = x) ∧
    (∀ (x x' : Binary64) (k : Int), x.isFinite = true → x'.isFinite = true →
      x'.truncate = x.truncate + k * 2 ^ 32 → ∀ y, xorWords x' y = xorWords x y ∧
        xorWords y x' = xorWords y x) := by
  refine ⟨?_, ?_, ?_, xorWords_comm, xorWords_assoc, xorWords_self,
    fun x n hx lo hi => xorWords_zero hx lo hi, ?_⟩
  · intro fuel caller a b x y S m ha hb hs
    exact Evaluation.invoke_binary (apply_xor ha hb) fuel caller hs
  · intro x y hx hy
    have hr := isInt_xorWords x y
    rw [toWord32, toWord32, if_pos hx, if_pos hy] at hr
    exact ⟨BitVec.le_toInt _, BitVec.toInt_lt, hr⟩
  · intro x y hx
    have hzero : x.toWord32 = (ofInt 0).toWord32 := by
      rw [toWord32_of_not_isFinite hx, toWord32_ofInt_zero]
    exact ⟨xorWords_congr hzero rfl, xorWords_congr rfl hzero⟩
  · intro x x' k hx hx' h y
    have hshift := toWord32_shift hx hx' h
    exact ⟨xorWords_congr hshift rfl, xorWords_congr rfl hshift⟩

open Binary64 in
/-- Zero is no identity beyond the signed 32-bit range: `2 ^ 32 + 1` xor `0` is `1`. -/
theorem xor_zero_wraps :
    Binary.xorWords (ofInt 4294967297) (ofInt 0) = ofInt 1 ∧ ofInt 1 ≠ ofInt 4294967297 := by
  have hbig := isInt_ofInt (n := 4294967297) (by decide)
  have hone := isInt_ofInt (n := 1) (by decide)
  refine ⟨?_, ?_⟩
  · rw [Binary.xorWords_eq, toWord32_of_isInt hbig, Binary.toWord32_ofInt_zero]
    rfl
  · intro h
    have htr : (ofInt 1).truncate = (ofInt 4294967297).truncate := by rw [h]
    rw [hone.2.2.1, hbig.2.2.1] at htr
    exact absurd htr (by decide)

end Concatenative
