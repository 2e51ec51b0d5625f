import Mathlib.Data.UInt
import SyncLib.Core.Bits
import SyncLib.Core.Ring
import SyncLib.ThreadPool.Basic

/-!
# The loop of `post_work` and `post_task`

A post tries queue `(i + n) % count_` for each `n` below `LOOP_K` times `count_`, where `i + n` may
wrap around. On one of the two sides of the wrap there are `count_` tickets in a row, so a post
whose attempts all fail has tried every queue.
-/

namespace Sync

open Core

namespace ThreadPool

/-! ### The loop -/

/-- The queues that a post has tried, the queue that has got its work object, and whether that was
by the `push` after the loop. -/
structure Posted where
  tried : List UInt32
  index : UInt32
  pushed : Bool
  deriving DecidableEq, Repr

/-- A further attempt before the others. -/
def Posted.cons (k : UInt32) (r : Posted) : Posted := { r with tried := k :: r.tried }

/-- The number of iterations of the loop that are left. -/
lemma iterations_lt {n bound : UInt32} (h : n < bound) :
    (n + 1).toNat = n.toNat + 1 ∧ bound.toNat - (n + 1).toNat < bound.toNat - n.toNat := by
  have hlt := UInt32.lt_iff_toNat_lt.mp h
  have hbound := bound.toNat_lt
  have hsucc : (n + 1).toNat = n.toNat + 1 := by
    rw [UInt32.toNat_add, UInt32.toNat_one]
    exact Nat.mod_eq_of_lt (by omega)
  exact ⟨hsucc, by omega⟩

/-- The loop from `n` on with the ticket `i`, and the `push` after it; `ok n` is what the attempt
number `n` returns. -/
def postLoop (count i : UInt32) (ok : UInt32 → Bool) (n : UInt32) : Posted :=
  if n < count * loopK then
    let k := (i + n) % count
    if ok n then ⟨[k], k, false⟩ else (postLoop count i ok (n + 1)).cons k
  else ⟨[], i % count, true⟩
termination_by (count * loopK).toNat - n.toNat
decreasing_by exact (iterations_lt ‹_›).2

/-- `post_work` and `post_task` after `index_.fetch_add(1)` has returned `i`. -/
def post (count i : UInt32) (ok : UInt32 → Bool) : Posted := postLoop count i ok 0

section

variable {count i : UInt32} {ok : UInt32 → Bool} {n : UInt32}

/-- The loop uses indices of queues only. -/
lemma postLoop_lt (hc : 0 < count) (i : UInt32) (ok : UInt32 → Bool) (n : UInt32) :
    (∀ k ∈ (postLoop count i ok n).tried, k < count) ∧
      (postLoop count i ok n).index < count := by
  have hslot : ∀ x : UInt32, x % count < count := fun x =>
    UInt32.lt_iff_toNat_lt.mpr (slot_lt count hc x)
  fun_induction postLoop count i ok n with
  | case1 n hn k hok => exact ⟨by simpa using hslot _, hslot _⟩
  | case2 n hn k hok ih =>
    refine ⟨fun j hj => ?_, ih.2⟩
    rcases List.mem_cons.mp hj with rfl | hj
    · exact hslot _
    · exact ih.1 j hj
  | case3 n hn => exact ⟨by simp, hslot _⟩

/-- The work object is pushed after the loop when every attempt has failed. -/
lemma postLoop_pushed : (postLoop count i ok n).pushed = true ↔
    ∀ m, n.toNat ≤ m → m < (count * loopK).toNat → ok (.ofNat m) = false := by
  fun_induction postLoop count i ok n with
  | case1 n hn k hok =>
    refine iff_of_false (by simp) fun h => ?_
    have hfail := h n.toNat le_rfl (UInt32.lt_iff_toNat_lt.mp hn)
    rw [UInt32.ofNat_toNat, hok] at hfail
    cases hfail
  | case2 n hn k hok ih =>
    have hsucc := (iterations_lt hn).1
    refine ih.trans ⟨fun h m hm hlt => ?_, fun h m hm hlt => h m (by omega) hlt⟩
    rcases hm.eq_or_lt with rfl | hm
    · simpa using hok
    · exact h m (by omega) hlt
  | case3 n hn =>
    refine iff_of_true rfl fun m hm hlt => ?_
    rw [UInt32.lt_iff_toNat_lt] at hn
    omega

/-- A loop whose attempts all fail has tried these queues. -/
lemma tried_of_pushed (h : (postLoop count i ok n).pushed = true) :
    (postLoop count i ok n).tried =
        (List.range' n.toNat ((count * loopK).toNat - n.toNat)).map
          (fun m => (i + .ofNat m) % count) ∧
      (postLoop count i ok n).index = i % count := by
  fun_induction postLoop count i ok n with
  | case1 n hn k hok => cases h
  | case2 n hn k hok ih =>
    obtain ⟨htried, hindex⟩ := ih h
    obtain ⟨hsucc, hlt⟩ := iterations_lt hn
    have hleft : (count * loopK).toNat - n.toNat
        = (count * loopK).toNat - (n + 1).toNat + 1 := by
      omega
    refine ⟨?_, hindex⟩
    rw [hleft, List.range'_succ, List.map_cons, UInt32.ofNat_toNat, ← hsucc, ← htried]
    rfl
  | case3 n hn =>
    rw [UInt32.lt_iff_toNat_lt, Nat.not_lt] at hn
    rw [Nat.sub_eq_zero_of_le hn]
    exact ⟨rfl, rfl⟩

end

/-! ### The tickets -/

/-- Among `2 * c` tickets in a row that wrap around at `size` there is one for every queue. -/
lemma exists_ticket {size c i q : ℕ} (hfit : 2 * c < size) (hi : i < size) (hq : q < c) :
    ∃ m, m < 2 * c ∧ (i + m) % size % c = q := by
  rcases Nat.lt_or_ge (i + c) size with hbefore | hwrap
  · -- the first `c` tickets do not wrap around
    obtain ⟨m, hm, heq⟩ := exists_add_mod (Nat.mod_lt i (by omega)) hq
    have hsmall : (i + m) % size = i + m := Nat.mod_eq_of_lt (by omega)
    refine ⟨m, by omega, ?_⟩
    rw [hsmall, ← heq, Nat.mod_add_mod]
  · -- there are less than `c` tickets before the wrap, and more than `c` after it
    have hover : i + (size - i + q) = q + size := by omega
    have hsmall : q % size = q := Nat.mod_eq_of_lt (by omega)
    refine ⟨size - i + q, by omega, ?_⟩
    rw [hover, Nat.add_mod_right, hsmall, Nat.mod_eq_of_lt hq]

/-- What holds of a post with the ticket `i` among `count` queues. -/
structure PostLaw (count i : UInt32) (ok : UInt32 → Bool) (r : Posted) : Prop where
  indices : ∀ k ∈ r.tried, k < count
  index : r.index < count
  pushed_iff : r.pushed = true ↔ ∀ m, m < (count * loopK).toNat → ok (.ofNat m) = false
  /-- Before the work object is pushed every queue has been tried. -/
  covers : r.pushed = true → ∀ q, q < count → q ∈ r.tried
  last : r.pushed = true → r.index = i % count

lemma toNat_bound {count : UInt32} (hfit : 2 * count.toNat < 2 ^ 32) :
    (count * loopK).toNat = 2 * count.toNat := by
  have hK : loopK.toNat = 2 := rfl
  rw [UInt32.toNat_mul, hK, Nat.mul_comm]
  exact Nat.mod_eq_of_lt hfit

/-- Any number of queues, any ticket and any outcomes of the attempts. -/
theorem post_law {count : UInt32} (hc : 0 < count) (hfit : 2 * count.toNat < 2 ^ 32) (i : UInt32)
    (ok : UInt32 → Bool) : PostLaw count i ok (post count i ok) := by
  obtain ⟨hindices, hindex⟩ := postLoop_lt hc i ok 0
  refine ⟨hindices, hindex, ?_, fun hp q hq => ?_, fun hp => (tried_of_pushed hp).2⟩
  · rw [post, postLoop_pushed]
    simp
  · obtain ⟨m, hm, heq⟩ := exists_ticket hfit i.toNat_lt (UInt32.lt_iff_toNat_lt.mp hq)
    rw [post, (tried_of_pushed hp).1, List.mem_map]
    refine ⟨m, ?_, ?_⟩
    · rw [List.mem_range'_1, toNat_bound hfit, UInt32.toNat_zero]
      omega
    · rw [← UInt32.toNat_inj, UInt32.toNat_mod, UInt32.toNat_add, UInt32.toNat_ofNat', ← heq,
        Nat.add_mod_mod]

/-- Three queues, where the attempts before and after the wrap do not make one rotation. -/
example : post 3 4294967294 (fun _ => false) = ⟨[2, 0, 0, 1, 2, 0], 2, true⟩ := by decide +kernel

/-- Three queues and a ticket with which the loop wraps around. -/
theorem post_law_three : PostLaw 3 4294967294 (fun _ => false)
    (post 3 4294967294 fun _ => false) :=
  post_law (by decide) (by decide) _ _

/-- A post of the pool goes through the queues of this loop. -/
theorem draw_eq_post (count : UInt32) (hc : 0 < count) (i : UInt32) :
    (post count i fun _ => false).tried.map UInt32.toNat
        = ((workStealing count hc).draw i).2.1.map Fin.val ∧
      (post count i fun _ => false).index.toNat = ((workStealing count hc).draw i).2.2.val := by
  have hp : (post count i fun _ => false).pushed = true := by
    rw [post, postLoop_pushed]
    simp
  obtain ⟨htried, hindex⟩ := tried_of_pushed hp
  constructor
  · rw [post, htried]
    simp [workStealing, slots, slot, List.range_eq_range']
  · rw [post, hindex]
    rfl

end ThreadPool

end Sync
