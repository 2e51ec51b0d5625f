import SyncLib.Core.Bits

/-!
# The word of `_stop_state`

`state_` packs two flags and two counts in 64 bits: the stop flag, the lock, the tokens and the
sources. This module has the atomic operations that `_stop_state` performs on it and what they do
to the four fields. `delete this` is the second component of the operations that drop a
reference.
-/

namespace Sync

namespace StopState

open Core

abbrev Word := BitVec 64

/-! ### Operations -/

def stopRequestedBit : Word := 0b1

def lockedBit : Word := 0b10

def stopTokenIncrement : Word := 0b100

def stopSourceIncrement : Word := 1#64 <<< 33

/-- The initial value of `state_`. -/
def initial : Word := stopSourceIncrement

def isLocked (state : Word) : Bool := state &&& lockedBit != 0

def stopRequested (state : Word) : Bool := state &&& stopRequestedBit != 0

def stopPossible (state : Word) : Bool :=
  stopRequested state || decide (stopSourceIncrement ≤ state)

def incrementTokenRef (state : Word) : Word := state + stopTokenIncrement

def decrementTokenRef (state : Word) : Word × Bool :=
  (state - stopTokenIncrement, decide (state < stopTokenIncrement + stopTokenIncrement))

def incrementSourceRef (state : Word) : Word := state + stopSourceIncrement

def decrementSourceRef (state : Word) : Word × Bool :=
  (state - stopSourceIncrement, decide (state < stopTokenIncrement + stopSourceIncrement))

/-- The new value in the compare-exchange of `lock` and of `try_push_callback`. -/
def locked (past : Word) : Word := past ||| lockedBit

/-- The new value in the compare-exchange of `try_request_stop_andlock`. -/
def requestedAndLocked (past : Word) : Word := past ||| stopRequestedBit ||| lockedBit

def unlock (state : Word) : Word := state &&& ~~~lockedBit

def unlockAndIncrementTokenRef (state : Word) : Word := state - (lockedBit - stopTokenIncrement)

def unlockAndDecrementTokenRef (state : Word) : Word × Bool :=
  (state - (lockedBit + stopTokenIncrement),
    decide (state < lockedBit + stopTokenIncrement + stopTokenIncrement))

/-- The count of the tokens in `state_`. -/
def tokenField (state : Word) : ℕ := state.toNat / 4 % 2 ^ 31

/-- The count of the sources in `state_`. -/
def sourceField (state : Word) : ℕ := state.toNat / 2 ^ 33

/-! ### The flags -/

lemma stopRequested_eq_getLsbD (w : Word) : stopRequested w = w.getLsbD 0 := by
  have hbit : w &&& stopRequestedBit = if w.getLsbD 0 then 1#64 else 0#64 :=
    BitVec.and_twoPow w 0
  rw [stopRequested, hbit]
  cases w.getLsbD 0 <;> rfl

lemma stopRequested_iff (w : Word) : stopRequested w = true ↔ w.toNat % 2 = 1 := by
  rw [stopRequested_eq_getLsbD, ← BitVec.testBit_toNat, Nat.testBit_eq_decide_div_mod_eq,
    decide_eq_true_eq, pow_zero, Nat.div_one]

lemma isLocked_iff (w : Word) : isLocked w = true ↔ w.toNat / 2 % 2 = 1 := by
  have hbit : w &&& lockedBit = if w.getLsbD 1 then 2#64 else 0#64 := BitVec.and_twoPow w 1
  rw [isLocked, hbit, ← BitVec.testBit_toNat, Nat.testBit_eq_decide_div_mod_eq]
  simp only [pow_one]
  split_ifs with h <;> simpa using h

lemma locked_eq {w : Word} (h : isLocked w = false) : locked w = w + lockedBit := by
  refine or_twoPow w 1 ?_
  rw [← BitVec.testBit_toNat, Nat.testBit_eq_decide_div_mod_eq, decide_eq_false_iff_not,
    pow_one, ← isLocked_iff]
  simp [h]

lemma requestedAndLocked_eq {w : Word} (hs : stopRequested w = false) (hl : isLocked w = false) :
    requestedAndLocked w = w + stopRequestedBit + lockedBit := by
  have hbit : w ||| stopRequestedBit = w + stopRequestedBit := by
    refine or_twoPow w 0 ?_
    rw [← BitVec.testBit_toNat, Nat.testBit_eq_decide_div_mod_eq, decide_eq_false_iff_not,
      pow_zero, Nat.div_one, ← stopRequested_iff]
    simp [hs]
  rw [requestedAndLocked, hbit]
  refine locked_eq ?_
  rw [← Bool.not_eq_true, isLocked_iff] at hl ⊢
  rw [← Bool.not_eq_true, stopRequested_iff] at hs
  have : (w + stopRequestedBit).toNat = (w.toNat + 1) % 2 ^ 64 := BitVec.toNat_add _ _
  have := w.isLt
  omega

lemma unlock_eq {w : Word} (h : isLocked w = true) : unlock w = w - lockedBit := by
  refine (and_not_twoPow w 1).trans (if_pos ?_)
  rw [← BitVec.testBit_toNat, Nat.testBit_eq_decide_div_mod_eq, decide_eq_true_eq, pow_one]
  exact (isLocked_iff w).mp h

/-- The flags are the last two bits of the word. -/
lemma flags_eq {w w' : Word} (h : w'.toNat % 4 = w.toNat % 4) :
    stopRequested w' = stopRequested w ∧ isLocked w' = isLocked w := by
  constructor
  · rw [Bool.eq_iff_iff, stopRequested_iff, stopRequested_iff]
    omega
  · rw [Bool.eq_iff_iff, isLocked_iff, isLocked_iff]
    omega

lemma flags_locked {w : Word} (h : isLocked w = false) :
    stopRequested (locked w) = stopRequested w ∧ isLocked (locked w) = true := by
  have hw := w.isLt
  have hadd : (w + lockedBit).toNat = (w.toNat + 2) % 2 ^ 64 := BitVec.toNat_add _ _
  rw [← Bool.not_eq_true, isLocked_iff] at h
  rw [locked_eq (by rwa [← Bool.not_eq_true, isLocked_iff]), Bool.eq_iff_iff, stopRequested_iff,
    stopRequested_iff, isLocked_iff]
  omega

lemma flags_requestedAndLocked {w : Word} (hs : stopRequested w = false)
    (hl : isLocked w = false) :
    stopRequested (requestedAndLocked w) = true ∧ isLocked (requestedAndLocked w) = true := by
  have hw := w.isLt
  have hadd : (w + stopRequestedBit + lockedBit).toNat = ((w.toNat + 1) % 2 ^ 64 + 2) % 2 ^ 64 := by
    rw [BitVec.toNat_add, BitVec.toNat_add]
    rfl
  rw [requestedAndLocked_eq hs hl, stopRequested_iff, isLocked_iff]
  rw [← Bool.not_eq_true, stopRequested_iff] at hs
  rw [← Bool.not_eq_true, isLocked_iff] at hl
  omega

lemma stopRequested_unlock {w : Word} (h : isLocked w = true) :
    stopRequested (unlock w) = stopRequested w := by
  have hsub : (w - lockedBit).toNat = (2 ^ 64 - 2 + w.toNat) % 2 ^ 64 := BitVec.toNat_sub _ _
  rw [unlock_eq h, Bool.eq_iff_iff, stopRequested_iff, stopRequested_iff]
  omega

lemma isLocked_unlock {w : Word} (h : isLocked w = true) : isLocked (unlock w) = false := by
  have hsub : (w - lockedBit).toNat = (2 ^ 64 - 2 + w.toNat) % 2 ^ 64 := BitVec.toNat_sub _ _
  rw [unlock_eq h, ← Bool.not_eq_true, isLocked_iff]
  rw [isLocked_iff] at h
  omega

/-- Requesting a stop sets the flag, whatever the lock is. -/
lemma stopRequested_unlock_requestedAndLocked (w : Word) :
    stopRequested (unlock (requestedAndLocked w)) = true := by
  rw [stopRequested_eq_getLsbD]
  simp [unlock, requestedAndLocked, stopRequestedBit, lockedBit]

lemma stopRequested_unlockAndIncrementTokenRef (w : Word) :
    stopRequested (unlockAndIncrementTokenRef w) = stopRequested w := by
  have hsub : (unlockAndIncrementTokenRef w).toNat = (2 ^ 64 - (2 ^ 64 - 2) + w.toNat) % 2 ^ 64 :=
    BitVec.toNat_sub _ _
  rw [Bool.eq_iff_iff, stopRequested_iff, stopRequested_iff]
  omega

lemma stopRequested_unlockAndDecrementTokenRef (w : Word) :
    stopRequested (unlockAndDecrementTokenRef w).1 = stopRequested w := by
  have hsub : (unlockAndDecrementTokenRef w).1.toNat = (2 ^ 64 - 6 + w.toNat) % 2 ^ 64 :=
    BitVec.toNat_sub _ _
  rw [Bool.eq_iff_iff, stopRequested_iff, stopRequested_iff]
  omega

lemma isLocked_unlockAndIncrementTokenRef {w : Word} (h : isLocked w = true) :
    isLocked (unlockAndIncrementTokenRef w) = false := by
  have hsub : (unlockAndIncrementTokenRef w).toNat = (2 ^ 64 - (2 ^ 64 - 2) + w.toNat) % 2 ^ 64 :=
    BitVec.toNat_sub _ _
  rw [isLocked_iff] at h
  rw [← Bool.not_eq_true, isLocked_iff]
  omega

lemma isLocked_unlockAndDecrementTokenRef {w : Word} (h : isLocked w = true) :
    isLocked (unlockAndDecrementTokenRef w).1 = false := by
  have hsub : (unlockAndDecrementTokenRef w).1.toNat = (2 ^ 64 - 6 + w.toNat) % 2 ^ 64 :=
    BitVec.toNat_sub _ _
  rw [isLocked_iff] at h
  rw [← Bool.not_eq_true, isLocked_iff]
  omega

lemma flags_incrementTokenRef (w : Word) :
    stopRequested (incrementTokenRef w) = stopRequested w ∧
      isLocked (incrementTokenRef w) = isLocked w := by
  have hadd : (incrementTokenRef w).toNat = (w.toNat + 4) % 2 ^ 64 := BitVec.toNat_add _ _
  exact flags_eq (by omega)

lemma flags_decrementTokenRef (w : Word) :
    stopRequested (decrementTokenRef w).1 = stopRequested w ∧
      isLocked (decrementTokenRef w).1 = isLocked w := by
  have hsub : (decrementTokenRef w).1.toNat = (2 ^ 64 - 4 + w.toNat) % 2 ^ 64 :=
    BitVec.toNat_sub _ _
  exact flags_eq (by omega)

lemma flags_incrementSourceRef (w : Word) :
    stopRequested (incrementSourceRef w) = stopRequested w ∧
      isLocked (incrementSourceRef w) = isLocked w := by
  have hadd : (incrementSourceRef w).toNat = (w.toNat + 2 ^ 33) % 2 ^ 64 := BitVec.toNat_add _ _
  exact flags_eq (by omega)

lemma flags_decrementSourceRef (w : Word) :
    stopRequested (decrementSourceRef w).1 = stopRequested w ∧
      isLocked (decrementSourceRef w).1 = isLocked w := by
  have hsub : (decrementSourceRef w).1.toNat = (2 ^ 64 - 2 ^ 33 + w.toNat) % 2 ^ 64 :=
    BitVec.toNat_sub _ _
  exact flags_eq (by omega)

/-! ### The fields -/

/-- The word stands for these two flags and two counts. -/
structure Encodes (w : Word) (stop lock : Bool) (tokens sources : ℕ) : Prop where
  toNat_eq : w.toNat = stop.toNat + 2 * lock.toNat + 4 * tokens + 2 ^ 33 * sources
  tokens_lt : tokens < 2 ^ 31
  sources_lt : sources < 2 ^ 31

lemma encodes_initial : Encodes initial false false 0 1 :=
  ⟨rfl, by decide, by decide⟩

namespace Encodes

variable {w : Word} {stop lock : Bool} {tokens sources : ℕ}

lemma stopRequested_eq (h : Encodes w stop lock tokens sources) : stopRequested w = stop := by
  rw [Bool.eq_iff_iff, stopRequested_iff, h.toNat_eq]
  cases stop <;> simp <;> omega

lemma isLocked_eq (h : Encodes w stop lock tokens sources) : isLocked w = lock := by
  have hs := Bool.toNat_le stop
  rw [Bool.eq_iff_iff, isLocked_iff, h.toNat_eq]
  cases lock <;> simp <;> omega

lemma tokenField_eq (h : Encodes w stop lock tokens sources) : tokenField w = tokens := by
  have hs := Bool.toNat_le stop
  have hl := Bool.toNat_le lock
  have ht := h.tokens_lt
  rw [tokenField, h.toNat_eq]
  omega

lemma sourceField_eq (h : Encodes w stop lock tokens sources) : sourceField w = sources := by
  have hs := Bool.toNat_le stop
  have hl := Bool.toNat_le lock
  have ht := h.tokens_lt
  rw [sourceField, h.toNat_eq]
  omega

lemma stopPossible_eq (h : Encodes w stop lock tokens sources) :
    stopPossible w = (stop || decide (0 < sources)) := by
  have hs := Bool.toNat_le stop
  have hl := Bool.toNat_le lock
  have ht := h.tokens_lt
  have hle : stopSourceIncrement ≤ w ↔ 0 < sources := by
    rw [BitVec.le_def, h.toNat_eq]
    change 2 ^ 33 ≤ _ ↔ _
    omega
  simp only [stopPossible, h.stopRequested_eq, hle]

lemma incrementTokenRef (h : Encodes w stop lock tokens sources) (ht : tokens + 1 < 2 ^ 31) :
    Encodes (incrementTokenRef w) stop lock (tokens + 1) sources := by
  have hw := w.isLt
  have heq := h.toNat_eq
  have hadd : (StopState.incrementTokenRef w).toNat = (w.toNat + 4) % 2 ^ 64 := BitVec.toNat_add _ _
  have hs := Bool.toNat_le stop
  have hl := Bool.toNat_le lock
  have hk := h.sources_lt
  exact ⟨by omega, ht, hk⟩

lemma decrementTokenRef (h : Encodes w stop lock (tokens + 1) sources) :
    Encodes (decrementTokenRef w).1 stop lock tokens sources ∧
      ((StopState.decrementTokenRef w).2 = true ↔ tokens = 0 ∧ sources = 0) := by
  have hw := w.isLt
  have heq := h.toNat_eq
  have hsub : (StopState.decrementTokenRef w).1.toNat = (2 ^ 64 - 4 + w.toNat) % 2 ^ 64 :=
    BitVec.toNat_sub _ _
  have hs := Bool.toNat_le stop
  have hl := Bool.toNat_le lock
  have ht := h.tokens_lt
  refine ⟨⟨by omega, by omega, h.sources_lt⟩, ?_⟩
  simp only [StopState.decrementTokenRef, decide_eq_true_eq, BitVec.lt_def]
  change w.toNat < 8 ↔ _
  omega

lemma incrementSourceRef (h : Encodes w stop lock tokens sources) (hk : sources + 1 < 2 ^ 31) :
    Encodes (incrementSourceRef w) stop lock tokens (sources + 1) := by
  have hw := w.isLt
  have heq := h.toNat_eq
  have hadd : (StopState.incrementSourceRef w).toNat = (w.toNat + 2 ^ 33) % 2 ^ 64 :=
    BitVec.toNat_add _ _
  have hs := Bool.toNat_le stop
  have hl := Bool.toNat_le lock
  have ht := h.tokens_lt
  exact ⟨by omega, ht, hk⟩

lemma decrementSourceRef (h : Encodes w stop lock tokens (sources + 1)) :
    Encodes (decrementSourceRef w).1 stop lock tokens sources ∧
      ((StopState.decrementSourceRef w).2 = true ↔ tokens = 0 ∧ sources = 0) := by
  have hw := w.isLt
  have heq := h.toNat_eq
  have hsub : (StopState.decrementSourceRef w).1.toNat = (2 ^ 64 - 2 ^ 33 + w.toNat) % 2 ^ 64 :=
    BitVec.toNat_sub _ _
  have hs := Bool.toNat_le stop
  have hl := Bool.toNat_le lock
  have hk := h.sources_lt
  refine ⟨⟨by omega, h.tokens_lt, by omega⟩, ?_⟩
  simp only [StopState.decrementSourceRef, decide_eq_true_eq, BitVec.lt_def]
  change w.toNat < 2 ^ 33 + 4 ↔ _
  omega

lemma locked (h : Encodes w stop false tokens sources) :
    Encodes (locked w) stop true tokens sources := by
  have hw := w.isLt
  have heq := h.toNat_eq
  have hadd : (w + lockedBit).toNat = (w.toNat + 2) % 2 ^ 64 := BitVec.toNat_add _ _
  have hs := Bool.toNat_le stop
  have ht := h.tokens_lt
  have hk := h.sources_lt
  simp only [Bool.toNat_false] at heq
  rw [locked_eq h.isLocked_eq]
  refine ⟨?_, ht, hk⟩
  simp only [Bool.toNat_true]
  omega

lemma requestedAndLocked (h : Encodes w false false tokens sources) :
    Encodes (requestedAndLocked w) true true tokens sources := by
  have hw := w.isLt
  have heq := h.toNat_eq
  have hadd : (w + stopRequestedBit + lockedBit).toNat = ((w.toNat + 1) % 2 ^ 64 + 2) % 2 ^ 64 := by
    rw [BitVec.toNat_add, BitVec.toNat_add]
    rfl
  have ht := h.tokens_lt
  have hk := h.sources_lt
  simp only [Bool.toNat_false] at heq
  rw [requestedAndLocked_eq h.stopRequested_eq h.isLocked_eq]
  refine ⟨?_, ht, hk⟩
  simp only [Bool.toNat_true]
  omega

lemma unlock (h : Encodes w stop true tokens sources) :
    Encodes (unlock w) stop false tokens sources := by
  have hw := w.isLt
  have heq := h.toNat_eq
  have hsub : (w - lockedBit).toNat = (2 ^ 64 - 2 + w.toNat) % 2 ^ 64 := BitVec.toNat_sub _ _
  have hs := Bool.toNat_le stop
  simp only [Bool.toNat_true] at heq
  rw [unlock_eq h.isLocked_eq]
  refine ⟨?_, h.tokens_lt, h.sources_lt⟩
  simp only [Bool.toNat_false]
  omega

lemma unlockAndIncrementTokenRef (h : Encodes w stop true tokens sources)
    (ht : tokens + 1 < 2 ^ 31) :
    Encodes (unlockAndIncrementTokenRef w) stop false (tokens + 1) sources := by
  have hw := w.isLt
  have heq := h.toNat_eq
  have hsub : (StopState.unlockAndIncrementTokenRef w).toNat
      = (2 ^ 64 - (2 ^ 64 - 2) + w.toNat) % 2 ^ 64 := BitVec.toNat_sub _ _
  have hs := Bool.toNat_le stop
  simp only [Bool.toNat_true] at heq
  refine ⟨?_, ht, h.sources_lt⟩
  have hk := h.sources_lt
  simp only [Bool.toNat_false]
  omega

lemma unlockAndDecrementTokenRef (h : Encodes w stop true (tokens + 1) sources) :
    Encodes (unlockAndDecrementTokenRef w).1 stop false tokens sources ∧
      ((StopState.unlockAndDecrementTokenRef w).2 = true ↔ tokens = 0 ∧ sources = 0) := by
  have hw := w.isLt
  have heq := h.toNat_eq
  have hsub : (StopState.unlockAndDecrementTokenRef w).1.toNat
      = (2 ^ 64 - 6 + w.toNat) % 2 ^ 64 := BitVec.toNat_sub _ _
  have hs := Bool.toNat_le stop
  have ht := h.tokens_lt
  simp only [Bool.toNat_true] at heq
  refine ⟨⟨?_, by omega, h.sources_lt⟩, ?_⟩
  · simp only [Bool.toNat_false]
    omega
  · simp only [StopState.unlockAndDecrementTokenRef, decide_eq_true_eq, BitVec.lt_def]
    change w.toNat < 10 ↔ _
    omega

end Encodes

end StopState

end Sync
