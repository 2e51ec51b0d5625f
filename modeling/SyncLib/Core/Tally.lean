import Mathlib.Algebra.BigOperators.Group.Finset.Basic
import Mathlib.Algebra.Order.BigOperators.Group.Finset
import Mathlib.Data.Fintype.BigOperators
import Mathlib.Tactic.Common

/-!
# Weights summed over a finite family

`tally w f` is the sum of the weights `w (f t)` over all indices `t`. With a weight that is `0`
or `1` it counts the indices whose value has a property. `tally_update` is how a tally changes
when one index moves.
-/

namespace Core

variable {T π : Type*} [Fintype T]

/-- The total weight of a family. -/
def tally (w : π → ℕ) (f : T → π) : ℕ := ∑ t, w (f t)

/-- How a tally changes when the value at `t` becomes `p`. -/
theorem tally_update [DecidableEq T] (w : π → ℕ) (f : T → π) (t : T) (p : π) :
    tally w (Function.update f t p) + w (f t) = tally w f + w p := by
  have hrest : ∑ u ∈ Finset.univ.erase t, w (Function.update f t p u)
      = ∑ u ∈ Finset.univ.erase t, w (f u) := by
    refine Finset.sum_congr rfl fun u hu => ?_
    rw [Function.update_of_ne (Finset.ne_of_mem_erase hu)]
  have h₁ := Finset.add_sum_erase Finset.univ (fun u => w (Function.update f t p u))
    (Finset.mem_univ t)
  have h₂ := Finset.add_sum_erase Finset.univ (fun u => w (f u)) (Finset.mem_univ t)
  simp only [Function.update_self, hrest] at h₁ h₂
  simp only [tally]
  omega

lemma tally_congr {w w' : π → ℕ} {f g : T → π} (h : ∀ t, w (f t) = w' (g t)) :
    tally w f = tally w' g :=
  Finset.sum_congr rfl fun t _ => h t

lemma le_tally (w : π → ℕ) (f : T → π) (t : T) : w (f t) ≤ tally w f :=
  Finset.single_le_sum (f := fun u => w (f u)) (fun _ _ => Nat.zero_le _) (Finset.mem_univ t)

lemma tally_eq_zero_iff {w : π → ℕ} {f : T → π} : tally w f = 0 ↔ ∀ t, w (f t) = 0 := by
  simp [tally, Finset.sum_eq_zero_iff]

lemma tally_pos_iff {w : π → ℕ} {f : T → π} : 0 < tally w f ↔ ∃ t, 0 < w (f t) := by
  rw [Nat.pos_iff_ne_zero, ne_eq, tally_eq_zero_iff]
  simp only [not_forall, Nat.pos_iff_ne_zero]

lemma tally_le_tally {w w' : π → ℕ} {f g : T → π} (h : ∀ t, w (f t) ≤ w' (g t)) :
    tally w f ≤ tally w' g :=
  Finset.sum_le_sum fun t _ => h t

lemma tally_add (w w' : π → ℕ) (f : T → π) :
    tally (fun p => w p + w' p) f = tally w f + tally w' f :=
  Finset.sum_add_distrib

lemma add_le_tally [DecidableEq T] (w : π → ℕ) (f : T → π) {t u : T} (h : t ≠ u) :
    w (f t) + w (f u) ≤ tally w f := by
  rw [← Finset.sum_pair (f := fun v => w (f v)) h]
  exact Finset.sum_le_sum_of_subset (Finset.subset_univ _)

/-- Where the tally is at most one, an index of weight one is the only one with a weight. -/
lemma eq_zero_of_tally_le_one [DecidableEq T] {w : π → ℕ} {f : T → π} {t u : T}
    (h : tally w f ≤ 1) (ht : w (f t) = 1) (hu : u ≠ t) : w (f u) = 0 := by
  have := add_le_tally w f hu
  omega

/-- A weight that is constantly one counts the indices. -/
lemma tally_eq_card {w : π → ℕ} {f : T → π} (h : ∀ t, w (f t) = 1) :
    tally w f = Fintype.card T := by
  simp [tally, h]

lemma tally_le_card_mul {w : π → ℕ} {f : T → π} {n : ℕ} (h : ∀ t, w (f t) ≤ n) :
    tally w f ≤ Fintype.card T * n := by
  have hsum : tally w f ≤ ∑ _t : T, n := Finset.sum_le_sum fun t _ => h t
  simpa using hsum

end Core
