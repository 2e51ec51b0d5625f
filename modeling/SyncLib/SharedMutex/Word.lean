import SyncLib.Core.Bits

/-!
# The word of `shared_mutex_base`

`state_` has a flag for the writer that holds the mutex or waits for the readers to leave, and
under it the count of the readers. `Encodes` is what a word stands for.
-/

namespace Sync

open Core

namespace SharedMutex

/-- `unsigned`, with `w + 1` bits. -/
abbrev Word (w : ℕ) := BitVec (w + 1)

variable {w : ℕ}

def writeEntered : Word w := BitVec.twoPow (w + 1) w

def nReaders : Word w := ~~~writeEntered

/-- `state_ & write_entered_`. -/
def entered (state : Word w) : Bool := state &&& writeEntered != 0

/-- `state_ & n_readers_`. -/
def readers (state : Word w) : Word w := state &&& nReaders

/-- `state_ &= ~n_readers_; state_ |= readers;`. -/
def withReaders (state readers : Word w) : Word w := state &&& ~~~nReaders ||| readers

/-! ### What a word stands for -/

/-- The word stands for the flag and the count of readers. -/
structure Encodes (state : Word w) (flag : Bool) (count : ℕ) : Prop where
  toNat_eq : state.toNat = count + flag.toNat * 2 ^ w
  count_lt : count < 2 ^ w

lemma toNat_writeEntered : (writeEntered : Word w).toNat = 2 ^ w := toNat_twoPow_last

lemma toNat_nReaders : (nReaders : Word w).toNat = 2 ^ w - 1 := by
  rw [nReaders, BitVec.toNat_not, toNat_writeEntered, Nat.pow_succ]
  omega

lemma encodes_zero : Encodes (0 : Word w) false 0 :=
  ⟨by simp, Nat.two_pow_pos w⟩

lemma encodes_writeEntered : Encodes (writeEntered : Word w) true 0 :=
  ⟨by simp [toNat_writeEntered], Nat.two_pow_pos w⟩

namespace Encodes

variable {state : Word w} {flag : Bool} {count : ℕ}

lemma count_le (h : Encodes state flag count) : count ≤ (nReaders : Word w).toNat := by
  rw [toNat_nReaders]
  exact Nat.le_sub_one_of_lt h.count_lt

lemma and_writeEntered (h : Encodes state flag count) :
    state &&& writeEntered = if flag then writeEntered else 0 := by
  have hand : state &&& writeEntered = if state.getLsbD w then writeEntered else 0 :=
    BitVec.and_twoPow state w
  have hcount := h.count_lt
  rw [hand, getLsbD_last, h.toNat_eq]
  cases flag with
  | false => simp [Nat.not_le.mpr hcount]
  | true => simp

lemma entered_eq (h : Encodes state flag count) : entered state = flag := by
  have hne : (writeEntered : Word w) ≠ 0 := by
    intro heq
    have hpos := Nat.two_pow_pos w
    rw [← toNat_writeEntered, heq] at hpos
    exact absurd hpos (by simp)
  rw [entered, h.and_writeEntered]
  cases flag with
  | false => rfl
  | true => simpa using hne

lemma toNat_readers (h : Encodes state flag count) : (readers state).toNat = count := by
  have hand : (readers state).toNat = state.toNat % 2 ^ w := toNat_and_not_twoPow_last state
  rw [hand, h.toNat_eq, Nat.add_mul_mod_self_right, Nat.mod_eq_of_lt h.count_lt]

lemma readers_eq_zero (h : Encodes state flag count) : readers state = 0 ↔ count = 0 := by
  rw [← BitVec.toNat_inj, h.toNat_readers]
  simp

lemma readers_eq_nReaders (h : Encodes state flag count) :
    readers state = nReaders ↔ count = (nReaders : Word w).toNat := by
  rw [← BitVec.toNat_inj, h.toNat_readers]

lemma readers_lt_nReaders (h : Encodes state flag count) :
    readers state < nReaders ↔ count < (nReaders : Word w).toNat := by
  rw [BitVec.lt_def, h.toNat_readers]

lemma eq_zero (h : Encodes state flag count) : state = 0 ↔ flag = false ∧ count = 0 := by
  have hpos := Nat.two_pow_pos w
  rw [← BitVec.toNat_inj, h.toNat_eq]
  cases flag <;> simp

/-- The flag is set. -/
lemma enter (h : Encodes state false count) : Encodes (state ||| writeEntered) true count := by
  have hadd : state ||| writeEntered = state + writeEntered := by
    apply or_twoPow state w
    rw [getLsbD_last, h.toNat_eq]
    simpa using h.count_lt
  have hcount := h.count_lt
  refine ⟨?_, hcount⟩
  rw [hadd, BitVec.toNat_add, toNat_writeEntered, h.toNat_eq, Nat.pow_succ]
  simp only [Bool.toNat_false, Bool.toNat_true]
  rw [Nat.mod_eq_of_lt (by omega)]
  omega

/-- The flag is withdrawn. -/
lemma withdraw (h : Encodes state flag count) : Encodes (state &&& ~~~writeEntered) false count :=
  ⟨by simpa [readers, nReaders] using h.toNat_readers, h.count_lt⟩

/-- The count of readers is replaced. -/
lemma withReaders (h : Encodes state flag count) {r : Word w} (hr : r.toNat < 2 ^ w) :
    Encodes (withReaders state r) flag r.toNat := by
  have hkeep : state &&& ~~~nReaders = if flag then writeEntered else 0 := by
    rw [nReaders, BitVec.not_not, h.and_writeEntered]
  refine ⟨?_, hr⟩
  rw [SharedMutex.withReaders, hkeep]
  cases flag with
  | false => simp
  | true =>
    have hor : (writeEntered ||| r).toNat = 2 ^ w + r.toNat := toNat_twoPow_last_or hr
    simp only [if_true, hor, Bool.toNat_true]
    omega

/-- A reader more. -/
lemma share (h : Encodes state flag count) (hlt : count < (nReaders : Word w).toNat) :
    Encodes (SharedMutex.withReaders state (readers state + 1)) flag (count + 1) := by
  have hr : (readers state + 1).toNat = count + 1 := by
    rw [toNat_nReaders] at hlt
    have hpow : 2 ^ (w + 1) = 2 ^ w * 2 := by rw [Nat.pow_succ]
    have hone : (1 : Word w).toNat = 1 := by simp
    rw [BitVec.toNat_add, h.toNat_readers, hone, Nat.mod_eq_of_lt (by omega)]
  rw [toNat_nReaders] at hlt
  rw [← hr]
  exact h.withReaders (by omega)

/-- A reader less. -/
lemma unshare (h : Encodes state flag count) (hpos : 0 < count) :
    (readers state - 1).toNat = count - 1 ∧
      Encodes (SharedMutex.withReaders state (readers state - 1)) flag (count - 1) := by
  have hcount := h.count_lt
  have hr : (readers state - 1).toNat = count - 1 := by
    have hone : (1 : Word w).toNat = 1 := by simp
    rw [BitVec.toNat_sub_of_le, h.toNat_readers, hone]
    rw [BitVec.le_def, h.toNat_readers, hone]
    exact hpos
  refine ⟨hr, ?_⟩
  rw [← hr]
  exact h.withReaders (by omega)

end Encodes

end SharedMutex

end Sync
