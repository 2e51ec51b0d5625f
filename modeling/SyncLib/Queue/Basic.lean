import Mathlib.Tactic.Common

/-!
# The operations of the bounded queues

What `blocking_queue` and `lock_free_queue` have in common: their operations, what these return,
and `unsigned int` where it does not wrap.
-/

namespace Sync

namespace Queue

inductive Op (α : Type*)
  | push (x : α)
  | tryPush (x : α)
  | pop
  | tryPop
  deriving DecidableEq, Repr

/-- Which end of the queue an operation works at. -/
inductive Side
  | push
  | pop
  deriving DecidableEq, Repr

def Side.other : Side → Side
  | .push => .pop
  | .pop  => .push

lemma Side.other_eq {d e : Side} : d.other = e ↔ d = e.other := by
  cases d <;> cases e <;> decide

def Op.side {α : Type*} : Op α → Side
  | .push _ | .tryPush _ => .push
  | .pop | .tryPop       => .pop

/-- What a call returns; `missing` where the end of the function is reached without a `return`. -/
inductive Result (α : Type*)
  | void
  | flag (b : Bool)
  | item (x : Option α)
  | missing
  deriving DecidableEq, Repr

/-- A call, the next operation of a call, or its failure, where a `wait_for` times out or a weak
compare-exchange fails without a reason. -/
inductive Move (α : Type*)
  | call (op : Op α)
  | proceed
  | fail
  deriving DecidableEq, Repr

/-! ### Words -/

lemma toNat_succ {i n : UInt32} (h : i.toNat < n.toNat) : (i + 1).toNat = i.toNat + 1 := by
  have hlt := n.toNat_lt
  rw [UInt32.toNat_add, UInt32.toNat_one]
  exact Nat.mod_eq_of_lt (by omega)

/-- The next index. -/
lemma toNat_next {i size : UInt32} (h : i.toNat < size.toNat) :
    ((i + 1) % size).toNat = (i.toNat + 1) % size.toNat := by
  rw [UInt32.toNat_mod, toNat_succ h]

lemma toNat_pred {i : UInt32} (h : 0 < i.toNat) : (i - 1).toNat = i.toNat - 1 := by
  apply UInt32.toNat_sub_of_le i 1
  rw [UInt32.le_iff_toNat_le, UInt32.toNat_one]
  exact h

end Queue

end Sync
