import Mathlib.Algebra.Group.Basic
import Mathlib.Algebra.Order.Group.Int
import Mathlib.Algebra.Order.Group.Nat
import Mathlib.Tactic.Common

/-!
# Machine words

Setting and clearing one bit of a bit vector, as an addition and a subtraction, and signed words
whose operations stay in their range.
-/

namespace Core

variable {n : ℕ}

lemma and_not_add_and (x m : BitVec n) : (x &&& ~~~m) + (x &&& m) = x := by
  have hdisj : (x &&& ~~~m) &&& (x &&& m) = 0#n := by
    ext i hi
    simp only [BitVec.getElem_and, BitVec.getElem_not, BitVec.getElem_zero]
    cases x[i] <;> cases m[i] <;> rfl
  rw [BitVec.add_eq_or_of_and_eq_zero _ _ hdisj]
  ext i hi
  simp only [BitVec.getElem_and, BitVec.getElem_or, BitVec.getElem_not]
  cases x[i] <;> cases m[i] <;> rfl

/-- A bit that is set is subtracted when it is cleared. -/
theorem and_not_twoPow (x : BitVec n) (i : ℕ) :
    x &&& ~~~BitVec.twoPow n i = if x.getLsbD i then x - BitVec.twoPow n i else x := by
  have h := and_not_add_and x (BitVec.twoPow n i)
  rw [BitVec.and_twoPow] at h
  split_ifs at h ⊢ with hx
  · rw [← BitVec.eq_sub_iff_add_eq] at h
    exact h
  · rwa [BitVec.add_zero] at h

/-- A bit that is clear is added when it is set. -/
theorem or_twoPow (x : BitVec n) (i : ℕ) (hx : x.getLsbD i = false) :
    x ||| BitVec.twoPow n i = x + BitVec.twoPow n i := by
  rw [BitVec.add_eq_or_of_and_eq_zero]
  rw [BitVec.and_twoPow, hx]
  rfl

/-! ### The last bit as a flag -/

lemma toNat_twoPow_last : (BitVec.twoPow (n + 1) n).toNat = 2 ^ n := by
  rw [BitVec.toNat_twoPow]
  exact Nat.mod_eq_of_lt (Nat.pow_lt_pow_succ (by decide))

lemma getLsbD_last (x : BitVec (n + 1)) : x.getLsbD n = decide (2 ^ n ≤ x.toNat) := by
  rw [← BitVec.testBit_toNat, Nat.testBit_eq_decide_div_mod_eq]
  have hx := x.isLt
  have hdiv : x.toNat / 2 ^ n < 2 := by
    rw [Nat.div_lt_iff_lt_mul (Nat.two_pow_pos n), ← Nat.pow_succ']
    exact hx
  have hpos : 1 ≤ x.toNat / 2 ^ n ↔ 2 ^ n ≤ x.toNat := Nat.one_le_div_iff (Nat.two_pow_pos n)
  rw [decide_eq_decide, ← hpos]
  generalize x.toNat / 2 ^ n = q at hdiv
  omega

/-- What remains of a word without its last bit. -/
lemma toNat_and_not_twoPow_last (x : BitVec (n + 1)) :
    (x &&& ~~~BitVec.twoPow (n + 1) n).toNat = x.toNat % 2 ^ n := by
  have hmask : (~~~BitVec.twoPow (n + 1) n).toNat = 2 ^ n - 1 := by
    rw [BitVec.toNat_not, toNat_twoPow_last, Nat.pow_succ]
    omega
  rw [BitVec.toNat_and, hmask, Nat.and_two_pow_sub_one_eq_mod]

/-- The last bit with a number in the others. -/
lemma toNat_twoPow_last_or {x : BitVec (n + 1)} (hx : x.toNat < 2 ^ n) :
    (BitVec.twoPow (n + 1) n ||| x).toNat = 2 ^ n + x.toNat := by
  have h := Nat.two_pow_add_eq_or_of_lt hx 1
  rw [BitVec.toNat_or, toNat_twoPow_last]
  rw [Nat.mul_one] at h
  exact h.symm

/-! ### Unsigned words -/

lemma toNat_add_of_lt {a b : UInt64} (h : a.toNat + b.toNat < 2 ^ 64) :
    (a + b).toNat = a.toNat + b.toNat := by
  rw [UInt64.toNat_add, Nat.mod_eq_of_lt h]

lemma toNat_sub_one_add_one {a : UInt64} (h : a ≠ 0) : (a - 1).toNat + 1 = a.toNat := by
  have hpos : 0 < a.toNat := Nat.pos_of_ne_zero fun h0 => h (UInt64.toNat_inj.mp h0)
  rw [UInt64.toNat_sub_of_le]
  · exact Nat.sub_add_cancel hpos
  · rwa [UInt64.le_iff_toNat_le]

/-! ### Signed words -/

/-- A value that a `long` can hold. -/
def FitsLong (n : ℤ) : Prop := Int64.minValue.toInt ≤ n ∧ n ≤ Int64.maxValue.toInt

lemma fitsLong_iff {n : ℤ} : FitsLong n ↔ -2 ^ 63 ≤ n ∧ n < 2 ^ 63 := by
  rw [FitsLong, Int64.toInt_minValue, Int64.toInt_maxValue, Int.le_sub_one_iff]

lemma bmod_of_fitsLong {n : ℤ} (h : FitsLong n) : n.bmod (2 ^ 64) = n := by
  obtain ⟨hmin, hmax⟩ := fitsLong_iff.mp h
  exact Int.bmod_eq_of_le hmin hmax

lemma toInt_add_of_fitsLong {a b : Int64} (h : FitsLong (a.toInt + b.toInt)) :
    (a + b).toInt = a.toInt + b.toInt := by
  rw [Int64.toInt_add, bmod_of_fitsLong h]

lemma toInt_sub_of_fitsLong {a b : Int64} (h : FitsLong (a.toInt - b.toInt)) :
    (a - b).toInt = a.toInt - b.toInt := by
  rw [Int64.toInt_sub, bmod_of_fitsLong h]

lemma toInt_add_sub_of_fitsLong {a b c : Int64} (hbc : FitsLong (b.toInt - c.toInt))
    (h : FitsLong (a.toInt + (b.toInt - c.toInt))) :
    (a + (b - c)).toInt = a.toInt + (b.toInt - c.toInt) := by
  have hsub := toInt_sub_of_fitsLong hbc
  have hsum : FitsLong (a.toInt + (b - c).toInt) := by rwa [hsub]
  exact (toInt_add_of_fitsLong hsum).trans (congrArg (a.toInt + ·) hsub)

/-- Narrowing a `long` to an `int` keeps a value that an `int` can hold. -/
lemma toInt_toInt32_of_le {a : Int64} (hmin : -2 ^ 31 ≤ a.toInt) (hmax : a.toInt < 2 ^ 31) :
    a.toInt32.toInt = a.toInt := by
  rw [Int64.toInt_toInt32]
  exact Int.bmod_eq_of_le hmin hmax

/-- The magnitude of a negative `int`, as an unsigned number. -/
lemma toNat_toUInt32_neg {a : Int32} {n : ℕ} (ha : a.toInt = -n) (hn : n < 2 ^ 31) :
    (-a).toUInt32.toNat = n := by
  have hneg : (-a).toInt = n := by
    rw [Int32.toInt_neg, ha, Int.neg_neg]
    exact Int.bmod_eq_of_le (by omega) (by omega)
  have hword : (-a).toBitVec.toInt = n := hneg
  rw [BitVec.toInt_eq_toNat_cond] at hword
  have hlt := (-a).toBitVec.isLt
  change (-a).toBitVec.toNat = n
  split_ifs at hword <;> omega

end Core
