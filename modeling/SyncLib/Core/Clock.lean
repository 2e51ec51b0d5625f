import SyncLib.Core.Bits

/-!
# Deadlines on a 64-bit clock

A clock never goes back, and its readings and the durations are 64-bit integers. A deadline is the
sum of a reading and a duration: it is the right one when the sum `Fits`, and otherwise it wraps
around to a time before the reading it was computed from.
-/

namespace Core

/-- A clock by its readings, one after the other. -/
structure Clock where
  reading : ℕ → Int64
  mono : ∀ ⦃i j : ℕ⦄, i ≤ j → reading i ≤ reading j

namespace Clock

variable {c : Clock} {t u : Int64} {d : Int64} {i j n : ℕ}

/-- One of the first `n` readings was not before `t`. -/
def Reached (c : Clock) (t : Int64) (n : ℕ) : Prop := ∃ i, i < n ∧ t ≤ c.reading i

/-- A time that is not after a reading is not after any later one. -/
lemma le_reading_of_le (h : t ≤ c.reading i) (hle : i ≤ j) : t ≤ c.reading j :=
  Int64.le_trans h (c.mono hle)

/-- A reading before a time at which the clock has been was taken earlier. -/
lemma lt_of_reading_lt (h : c.reading i < t) (ht : t ≤ c.reading j) : i < j := by
  by_contra hle
  exact absurd (le_reading_of_le ht (not_lt.mp hle)) (Int64.not_le.mpr h)

/-- One of the first `n` readings was at least `d` later than the first one. -/
def Elapsed (c : Clock) (d : Int64) (n : ℕ) : Prop :=
  ∃ i, i < n ∧ (c.reading 0).toInt + d.toInt ≤ (c.reading i).toInt

/-- The deadline that is `d` after the first reading can be represented. -/
def Fits (c : Clock) (d : Int64) : Prop := (c.reading 0).toInt + d.toInt < 2 ^ 63

instance (c : Clock) (d : Int64) : Decidable (c.Fits d) := inferInstanceAs (Decidable (_ < _))

def deadline (c : Clock) (d : Int64) : Int64 := c.reading 0 + d

lemma toInt_nonneg (hd : 0 ≤ d) : 0 ≤ d.toInt := by
  simpa using Int64.le_iff_toInt_le.mp hd

lemma toInt_deadline (hd : 0 ≤ d) (h : c.Fits d) :
    (c.deadline d).toInt = (c.reading 0).toInt + d.toInt := by
  have hnonneg := toInt_nonneg hd
  have hlow := (c.reading 0).le_toInt
  exact toInt_add_of_fitsLong (fitsLong_iff.mpr ⟨by omega, h⟩)

/-- A deadline that wraps around is over when it is computed. -/
lemma deadline_lt (hd : 0 ≤ d) (h : ¬ c.Fits d) (i : ℕ) : c.deadline d < c.reading i := by
  have hnonneg := toInt_nonneg hd
  have hd' := d.toInt_lt
  have hhigh := (c.reading 0).toInt_lt
  have hfirst := Int64.le_iff_toInt_le.mp (c.mono i.zero_le)
  rw [Fits, not_lt] at h
  have hwrap : (c.deadline d).toInt = (c.reading 0).toInt + d.toInt - 2 ^ 64 := by
    rw [deadline, Int64.toInt_add, ← Int.sub_bmod_right]
    exact bmod_of_fitsLong (fitsLong_iff.mpr ⟨by omega, by omega⟩)
  rw [Int64.lt_iff_toInt_lt, hwrap]
  omega

/-- While the deadline can be represented, what is read at the deadline or later is late enough. -/
lemma elapsed_iff_reached (hd : 0 ≤ d) (h : c.Fits d) :
    c.Elapsed d n ↔ c.Reached (c.deadline d) n := by
  simp only [Elapsed, Reached, Int64.le_iff_toInt_le, toInt_deadline hd h]

/-- No reading is late enough when the deadline cannot be represented. -/
lemma not_elapsed (h : ¬ c.Fits d) : ¬ c.Elapsed d n := by
  rintro ⟨i, -, hi⟩
  have hlt := (c.reading i).toInt_lt
  rw [Fits, not_lt] at h
  omega

end Clock

end Core
