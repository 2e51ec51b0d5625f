import Mathlib.Data.List.Basic
import Mathlib.Data.List.OfFn
import Mathlib.Data.Nat.ModEq
import Mathlib.Logic.Function.Basic
import Mathlib.Tactic.Common

/-!
# Ring buffers

`Ring n data start l` says that the `n` slots of `data`, read cyclically from `start`, hold the
list `l` and are empty after it. `Ring.push` and `Ring.pop` are the two ends, `isSome_iff` is which
slots are occupied.
-/

namespace Core

variable {α : Type*}

/-- The occupied slots of a buffer of `n` slots are those from `start` on, and they hold `l`. -/
structure Ring (n : ℕ) (data : ℕ → Option α) (start : ℕ) (l : List α) : Prop where
  start_lt : start < n
  length_le : l.length ≤ n
  get : ∀ j, j < n → data ((start + j) % n) = l[j]?

lemma add_mod_inj {n start i j : ℕ} (hi : i < n) (hj : j < n)
    (h : (start + i) % n = (start + j) % n) : i = j := by
  have hmod : i ≡ j [MOD n] := Nat.ModEq.add_left_cancel' start h
  rwa [Nat.ModEq, Nat.mod_eq_of_lt hi, Nat.mod_eq_of_lt hj] at hmod

/-- Every slot has an offset. -/
lemma exists_add_mod {n start i : ℕ} (hs : start < n) (hi : i < n) :
    ∃ j, j < n ∧ (start + j) % n = i := by
  refine ⟨(i + (n - start)) % n, Nat.mod_lt _ (by omega), ?_⟩
  rw [Nat.add_mod_mod, show start + (i + (n - start)) = i + n by omega, Nat.add_mod_right]
  exact Nat.mod_eq_of_lt hi

/-- What the first slots hold, as a list. -/
lemma exists_list {n : ℕ} {f : ℕ → Option α} (h : ∀ i, i < n → (f i).isSome) :
    ∃ l : List α, l.length = n ∧ ∀ i, i < n → l[i]? = f i := by
  refine ⟨List.ofFn fun i : Fin n => (f i).get (h i i.isLt), List.length_ofFn, fun i hi => ?_⟩
  rw [List.getElem?_ofFn, dif_pos hi, Option.some_get]

namespace Ring

variable {n start : ℕ} {data : ℕ → Option α} {l : List α} {x : α}

lemma empty (hn : 0 < n) : Ring n (fun _ => (none : Option α)) 0 [] :=
  ⟨hn, Nat.zero_le _, fun _ _ => rfl⟩

/-- The occupied slots. -/
theorem isSome_iff (h : Ring n data start l) {i : ℕ} (hi : i < n) :
    (data i).isSome ↔ ∃ j, j < l.length ∧ i = (start + j) % n := by
  obtain ⟨j, hj, rfl⟩ := exists_add_mod h.start_lt hi
  rw [h.get j hj, Option.isSome_iff_ne_none, ne_eq, List.getElem?_eq_none_iff, Nat.not_le]
  constructor
  · intro hlt
    exact ⟨j, hlt, rfl⟩
  · rintro ⟨k, hk, heq⟩
    rwa [add_mod_inj hj (hk.trans_le h.length_le) heq]

/-- The slot behind the last element is empty. -/
lemma get_end (h : Ring n data start l) (hlt : l.length < n) :
    data ((start + l.length) % n) = none := by
  rw [h.get _ hlt]
  exact List.getElem?_eq_none le_rfl

/-- An element is added at the end. -/
theorem push (h : Ring n data start l) (hlt : l.length < n) :
    Ring n (Function.update data ((start + l.length) % n) (some x)) start (l ++ [x]) := by
  refine ⟨h.start_lt, ?_, fun j hj => ?_⟩
  · rw [List.length_append]
    exact hlt
  · by_cases hlast : j = l.length
    · rw [hlast, Function.update_self, List.getElem?_concat_length]
    · have hne : (start + j) % n ≠ (start + l.length) % n :=
        fun heq => hlast (add_mod_inj hj hlt heq)
      rw [Function.update_of_ne hne, h.get j hj]
      rcases Nat.lt_or_gt_of_ne hlast with hlow | hhigh
      · rw [List.getElem?_append_left hlow]
      · rw [List.getElem?_eq_none (by omega), List.getElem?_eq_none (by simp; omega)]

/-- The slot at the start holds the first element. -/
lemma get_start (h : Ring n data start (x :: l)) : data start = some x := by
  have hget := h.get 0 (Nat.zero_lt_of_lt h.start_lt)
  rwa [Nat.add_zero, Nat.mod_eq_of_lt h.start_lt] at hget

/-- The first element is removed. -/
theorem pop (h : Ring n data start (x :: l)) :
    Ring n (Function.update data start none) ((start + 1) % n) l := by
  have hlt := h.start_lt
  have hle := h.length_le
  rw [List.length_cons] at hle
  refine ⟨Nat.mod_lt _ (by omega), by omega, fun j hj => ?_⟩
  rw [Nat.mod_add_mod, Nat.add_assoc, Nat.add_comm 1 j]
  by_cases hlast : j + 1 = n
  · -- the slot of the removed element is now the last one
    rw [hlast, Nat.add_mod_right, Nat.mod_eq_of_lt hlt, Function.update_self,
      List.getElem?_eq_none (by omega)]
  · have hne : (start + (j + 1)) % n ≠ start := by
      intro heq
      have hzero : (start + (j + 1)) % n = (start + 0) % n := by
        rw [heq, Nat.add_zero, Nat.mod_eq_of_lt hlt]
      exact absurd (add_mod_inj (by omega) (by omega) hzero) (Nat.succ_ne_zero j)
    rw [Function.update_of_ne hne, h.get (j + 1) (by omega), List.getElem?_cons_succ]

end Ring

end Core
