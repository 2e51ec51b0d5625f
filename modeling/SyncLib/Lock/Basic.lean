import Mathlib.Data.Set.Insert
import Mathlib.Order.BooleanAlgebra.Set
import SyncLib.Core.Program
import SyncLib.UniqueLock

/-!
# `try_lock` and `lock`

The functions that lock several mutexes, as programs over the operations of the mutexes. Whether
`try_lock` of a mutex succeeds is left to its answer. The loops of `lock` are given by their
bodies: a body returns the arguments of the next round, or nothing when `lock` returns.
-/

namespace Sync

open Core

/-! ### Mutexes -/

inductive MutexOp (M : Type)
  | lock (m : M)
  | tryLock (m : M)
  | unlock (m : M)
  | yield
  deriving DecidableEq, Repr

/-- What an operation returns. -/
abbrev MutexOp.Result {M : Type} : MutexOp M → Type
  | .tryLock _ => Bool
  | _          => Unit

abbrev MutexProgram (M : Type) : Type → Type := Program (MutexOp M) MutexOp.Result

variable {M : Type}

namespace Mutex

def lock (m : M) : MutexProgram M Unit := Program.op (MutexOp.lock m)

def tryLock (m : M) : MutexProgram M Bool := Program.op (MutexOp.tryLock m)

def unlock (m : M) : MutexProgram M Unit := Program.op (MutexOp.unlock m)

/-- `this_thread::yield()`. -/
def yield : MutexProgram M Unit := Program.op MutexOp.yield

end Mutex

namespace UniqueLock

/-- `unique_lock lock{m}`. -/
def locking (m : M) : MutexProgram M (UniqueLock M) := do
  Mutex.lock m
  return (Ctor.locking m).make

/-- `unique_lock lock{m, try_to_lock}`. -/
def tryToLock (m : M) : MutexProgram M (UniqueLock M) := do
  let ok ← Mutex.tryLock m
  return (Ctor.tryToLock m ok).make

/-- The scope of `l`: `body` returns the object as it leaves it, and the destructor runs. -/
def scope {α : Type} (l : UniqueLock M) (body : UniqueLock M → MutexProgram M (UniqueLock M × α)) :
    MutexProgram M α := do
  let r ← body l
  match r.1.destroy with
  | some m => Mutex.unlock m
  | none => pure ()
  return r.2

end UniqueLock

namespace Lock

open UniqueLock

/-! ### try_lock -/

/-- `try_lock` on two mutexes. -/
def tryLock₂ (m0 m1 : M) : MutexProgram M ℤ := do
  let lock ← tryToLock m0
  lock.scope fun lock => do
    if lock.owns then
      if ← Mutex.tryLock m1 then
        return (lock.release.1, -1)
      else
        return (lock, 1)
    else
      return (lock, 0)

/-- `try_lock` on `m0`, `m1` and the mutexes `mn`. -/
def tryLock (m0 m1 : M) : List M → MutexProgram M ℤ
  | []       => tryLock₂ m0 m1
  | m2 :: mn => do
    let lock ← tryToLock m0
    lock.scope fun lock => do
      if lock.owns then
        let i ← tryLock m1 m2 mn
        if i = -1 then
          return (lock.release.1, i)
        else
          return (lock, i + 1)
      else
        return (lock, 0)

/-! ### lock -/

/-- The arguments of `_lock_first`. -/
structure Args (M : Type) where
  m0 : M
  m1 : M
  m2 : M
  mn : List M
  deriving DecidableEq, Repr

namespace Args

def toList (a : Args M) : List M := a.m0 :: a.m1 :: a.m2 :: a.mn

/-- `m2, mn..., m0, m1`. -/
def rotate (a : Args M) : Args M :=
  match a.mn with
  | []             => ⟨a.m2, a.m0, a.m1, []⟩
  | [m3]           => ⟨a.m2, m3, a.m0, [a.m1]⟩
  | m3 :: m4 :: mn => ⟨a.m2, m3, m4, mn ++ [a.m0, a.m1]⟩

/-- `try_lock(m1, m2, mn...)`. -/
def tryLockFirst (a : Args M) : MutexProgram M ℤ := tryLock a.m1 a.m2 a.mn

/-- `try_lock(m2, mn..., m0)`. -/
def tryLockSecond (a : Args M) : MutexProgram M ℤ :=
  match a.mn with
  | []       => tryLock a.m2 a.m0 []
  | m3 :: mn => tryLock a.m2 m3 (mn ++ [a.m0])

end Args

/-- A call of `lock` at the start of a round of its loop. -/
inductive Call (M : Type)
  | two (m0 m1 : M)
  | first (i : ℤ) (a : Args M)
  deriving DecidableEq, Repr

/-- One half of a round of `lock(m0, m1)`: whether both mutexes were locked. -/
def lockThenTry (m0 m1 : M) : MutexProgram M Bool := do
  let lock ← locking m0
  lock.scope fun lock => do
    if ← Mutex.tryLock m1 then
      return (lock.release.1, true)
    else
      return (lock, false)

/-- The body of the loop of `lock(m0, m1)`. -/
def lockRound (m0 m1 : M) : MutexProgram M (Option (Call M)) := do
  if ← lockThenTry m0 m1 then return none
  Mutex.yield
  if ← lockThenTry m1 m0 then return none
  Mutex.yield
  return some (.two m0 m1)

/-- The first statement of a case of `_lock_first`: `m` is locked, the others are tried, and the
result of the attempt is the new value of `i`. -/
def lockThenTryAll (m : M) (others : MutexProgram M ℤ) : MutexProgram M ℤ := do
  let lock ← locking m
  lock.scope fun lock => do
    let i ← others
    if i = -1 then
      return (lock.release.1, i)
    else
      return (lock, i)

/-- The body of the loop of `_lock_first(i, m0, m1, m2, mn...)`. -/
def lockFirstRound (i : ℤ) (a : Args M) : MutexProgram M (Option (Call M)) :=
  if i = 0 then do
    let i ← lockThenTryAll a.m0 a.tryLockFirst
    if i = -1 then return none
    let i := i + 1
    Mutex.yield
    return some (.first i a)
  else if i = 1 then do
    let i ← lockThenTryAll a.m1 a.tryLockSecond
    if i = -1 then return none
    let i := if i = a.mn.length + 1 then 0 else i + 2
    Mutex.yield
    return some (.first i a)
  else
    return some (.first (i - 2) a.rotate)

/-- The next round of a call. -/
def Call.round : Call M → MutexProgram M (Option (Call M))
  | .two m0 m1 => lockRound m0 m1
  | .first i a => lockFirstRound i a

/-- `lock(m0, m1, mn...)`, and with it the constructor of `scoped_lock`. -/
def lock (m0 m1 : M) : List M → Call M
  | []       => .two m0 m1
  | m2 :: mn => .first 0 ⟨m0, m1, m2, mn⟩

/-- `_unlock`, and with it the destructor of `scoped_lock`. -/
def unlock : List M → MutexProgram M Unit
  | []            => pure ()
  | [m0]          => Mutex.unlock m0
  | m0 :: m1 :: mn => do
    Mutex.unlock m0
    Mutex.unlock m1
    unlock mn

/-- The mutexes of a call. -/
def Call.mutexes : Call M → Set M
  | .two m0 m1 => {m | m = m0 ∨ m = m1}
  | .first _ a => {m | m ∈ a.toList}

lemma mutexes_lock (m0 m1 : M) (mn : List M) :
    (lock m0 m1 mn).mutexes = {m | m ∈ m0 :: m1 :: mn} := by
  cases mn with
  | nil => ext m; simp [lock, Call.mutexes]
  | cons m2 mn => rfl

lemma mem_rotate (a : Args M) (m : M) : m ∈ a.rotate.toList ↔ m ∈ a.toList := by
  obtain ⟨m0, m1, m2, mn⟩ := a
  match mn with
  | [] => simp [Args.rotate, Args.toList]; tauto
  | [m3] => simp [Args.rotate, Args.toList]; tauto
  | m3 :: m4 :: mn => simp [Args.rotate, Args.toList]; tauto

/-! ### What the programs hold -/

/-- What a thread that holds the mutexes `H` may do: it blocks in `lock` only when it holds
nothing, and unlocks only what it holds. -/
def custody : Contract (MutexOp M) MutexOp.Result (Set M) where
  requires
    | .lock _, H => H = ∅
    | .unlock m, H => m ∈ H
    | _, _ => True
  ensures
    | .lock m, H, _, H' => m ∉ H ∧ H' = insert m H
    | .tryLock m, H, ok, H' => if ok then m ∉ H ∧ H' = insert m H else H' = H
    | .unlock m, H, _, H' => H' = H \ {m}
    | .yield, H, _, H' => H' = H

variable {α : Type} {H : Set M}

lemma wp_lock {m : M} {Q : Unit → Set M → Prop} :
    custody.wp (Mutex.lock m) Q H ↔ H = ∅ ∧ Q () {m} := by
  simp only [Mutex.lock, Contract.wp_op, custody]
  constructor
  · rintro ⟨rfl, h⟩
    exact ⟨rfl, h () _ ⟨Set.notMem_empty m, by simp⟩⟩
  · rintro ⟨rfl, h⟩
    refine ⟨rfl, ?_⟩
    rintro ⟨⟩ H' ⟨-, rfl⟩
    simpa using h

lemma wp_tryLock {m : M} {Q : Bool → Set M → Prop} (ht : m ∉ H → Q true (insert m H))
    (hf : Q false H) : custody.wp (Mutex.tryLock m) Q H := by
  refine (Contract.wp_op _ _ _ _).mpr ⟨trivial, fun ok H' h => ?_⟩
  cases ok with
  | true =>
    simp only [custody, if_true] at h
    obtain ⟨hm, rfl⟩ := h
    exact ht hm
  | false =>
    simp only [custody, Bool.false_eq_true, if_false] at h
    exact h ▸ hf

@[simp] lemma wp_unlock {m : M} {Q : Unit → Set M → Prop} :
    custody.wp (Mutex.unlock m) Q H ↔ m ∈ H ∧ Q () (H \ {m}) := by
  simp only [Mutex.unlock, Contract.wp_op, custody]
  exact ⟨fun h => ⟨h.1, h.2 () _ rfl⟩, fun h => ⟨h.1, fun _ _ hH => hH ▸ h.2⟩⟩

@[simp] lemma wp_yield {Q : Unit → Set M → Prop} :
    custody.wp (Mutex.yield) Q H ↔ Q () H := by
  simp only [Mutex.yield, Contract.wp_op, custody]
  exact ⟨fun h => h.2 () _ rfl, fun h => ⟨trivial, fun _ _ hH => hH ▸ h⟩⟩

/-- At the end of a scope the destructor unlocks what the object still owns. -/
lemma wp_scope {l : UniqueLock M} {body : UniqueLock M → MutexProgram M (UniqueLock M × α)}
    {Q : α → Set M → Prop} :
    custody.wp (l.scope body) Q H ↔
      custody.wp (body l) (fun r K => match r.1.destroy with
        | some m => m ∈ K ∧ Q r.2 (K \ {m})
        | none => Q r.2 K) H := by
  have hpost : ∀ (r : UniqueLock M × α) K, custody.wp (do
      match r.1.destroy with
      | some m => Mutex.unlock m
      | none => pure ()
      return r.2) Q K ↔ match r.1.destroy with
        | some m => m ∈ K ∧ Q r.2 (K \ {m})
        | none => Q r.2 K := by
    intro r K
    cases r.1.destroy <;> simp
  simp only [scope, Contract.wp_bind]
  constructor <;> intro h <;> refine Contract.wp_mono h fun r K => ?_
  · exact (hpost r K).mp
  · exact (hpost r K).mpr

/-- What an attempt on the mutexes `ms` has done when it returns `i`. -/
def Tried (ms : List M) (H : Set M) (i : ℤ) (H' : Set M) : Prop :=
  i = -1 ∧ H' = H ∪ {m | m ∈ ms} ∨ 0 ≤ i ∧ H' = H

/-- A failed attempt gives back everything it took. -/
theorem wp_tryLock_tried (m0 m1 : M) (mn : List M) (H : Set M) :
    custody.wp (tryLock m0 m1 mn) (Tried (m0 :: m1 :: mn) H) H := by
  induction mn generalizing m0 m1 H with
  | nil =>
    simp only [tryLock, tryLock₂, tryToLock, Contract.wp_bind]
    apply wp_tryLock
    · intro hm0
      simp only [Contract.wp_pure, Ctor.make, wp_scope, if_true, Contract.wp_bind]
      apply wp_tryLock
      · intro _
        refine .inl ⟨rfl, ?_⟩
        ext m
        simp only [Set.mem_insert_iff, Set.mem_union, Set.mem_ofPred_eq, List.mem_cons,
          List.not_mem_nil, or_false]
        tauto
      · refine ⟨Set.mem_insert _ _, .inr ⟨Int.one_nonneg, ?_⟩⟩
        exact Set.insert_sdiff_self_of_notMem hm0
    · simp only [Contract.wp_pure, Ctor.make, wp_scope]
      exact .inr ⟨le_rfl, rfl⟩
  | cons m2 mn ih =>
    simp only [tryLock, tryToLock, Contract.wp_bind]
    apply wp_tryLock
    · intro hm0
      simp only [Contract.wp_pure, Ctor.make, wp_scope, if_true, Contract.wp_bind]
      refine Contract.wp_mono (ih m1 m2 (insert m0 H)) fun i H' hi => ?_
      rcases hi with ⟨rfl, rfl⟩ | ⟨hi, rfl⟩
      · refine .inl ⟨rfl, ?_⟩
        ext m
        simp only [Set.mem_insert_iff, Set.mem_union, Set.mem_ofPred_eq, List.mem_cons]
        tauto
      · have hne : i ≠ -1 := by omega
        simp only [hne, if_false]
        refine ⟨Set.mem_insert _ _, .inr ⟨by omega, ?_⟩⟩
        exact Set.insert_sdiff_self_of_notMem hm0
    · simp only [Contract.wp_pure, Ctor.make, wp_scope]
      exact .inr ⟨le_rfl, rfl⟩

/-- What a round of a call of `lock` has done when it returns: all mutexes are locked, or none
and the same call goes on. -/
def Rounded (c : Call M) : Option (Call M) → Set M → Prop
  | none, H   => H = c.mutexes
  | some c', H => H = ∅ ∧ c'.mutexes = c.mutexes

lemma wp_lockThenTry (m0 m1 : M) :
    custody.wp (lockThenTry m0 m1) (fun done H => H = if done then {m | m = m0 ∨ m = m1} else ∅)
      ∅ := by
  simp only [lockThenTry, locking, Contract.wp_bind, wp_scope, wp_lock, Contract.wp_pure, Ctor.make,
    true_and]
  apply wp_tryLock
  · intro _
    ext m
    simp only [Set.mem_insert_iff, Set.mem_singleton_iff, if_true, Set.mem_ofPred_eq]
    tauto
  · refine ⟨rfl, ?_⟩
    simp

lemma wp_lockThenTryAll (m : M) {others : MutexProgram M ℤ} {ms : List M}
    (h : custody.wp others (Tried ms {m}) {m}) :
    custody.wp (lockThenTryAll m others) (Tried (m :: ms) ∅) ∅ := by
  simp only [lockThenTryAll, locking, Contract.wp_bind, wp_scope, wp_lock, Contract.wp_pure,
    Ctor.make, true_and]
  refine Contract.wp_mono h fun i H hi => ?_
  rcases hi with ⟨rfl, rfl⟩ | ⟨hi, rfl⟩
  · refine .inl ⟨rfl, ?_⟩
    ext m'
    simp
  · have hne : i ≠ -1 := by omega
    rw [if_neg hne]
    exact ⟨rfl, .inr ⟨hi, by simp⟩⟩

lemma wp_tryLockSecond (a : Args M) (H : Set M) :
    custody.wp a.tryLockSecond (Tried (a.m2 :: (a.mn ++ [a.m0])) H) H := by
  obtain ⟨m0, m1, m2, mn⟩ := a
  cases mn with
  | nil => exact wp_tryLock_tried m2 m0 [] H
  | cons m3 mn => exact wp_tryLock_tried m2 m3 (mn ++ [m0]) H

/-- A round blocks only when it holds nothing, and takes all mutexes or none. -/
theorem wp_round (c : Call M) : custody.wp c.round (Rounded c) ∅ := by
  cases c with
  | two m0 m1 =>
    simp only [Call.round, lockRound, Contract.wp_bind]
    refine Contract.wp_mono (wp_lockThenTry m0 m1) fun done H hH => ?_
    cases done with
    | true => exact hH
    | false =>
      simp only [Bool.false_eq_true, if_false] at hH ⊢
      subst hH
      simp only [Contract.wp_bind, wp_yield]
      refine Contract.wp_mono (wp_lockThenTry m1 m0) fun done H hH => ?_
      cases done with
      | true =>
        refine hH.trans ?_
        ext m
        exact or_comm
      | false =>
        simp only [Bool.false_eq_true, if_false, Contract.wp_bind, wp_yield] at hH ⊢
        exact ⟨hH, rfl⟩
  | first i a =>
    simp only [Call.round, lockFirstRound]
    split_ifs with h0 h1
    · simp only [Contract.wp_bind]
      have hfirst := wp_tryLock_tried a.m1 a.m2 a.mn {a.m0}
      refine Contract.wp_mono (wp_lockThenTryAll a.m0 hfirst) fun j H hj => ?_
      rcases hj with ⟨rfl, rfl⟩ | ⟨hj, rfl⟩
      · simp [Rounded, Call.mutexes, Args.toList]
      · rw [if_neg (by omega)]
        simp [Rounded, Call.mutexes]
    · simp only [Contract.wp_bind]
      have hsecond := wp_tryLockSecond a {a.m1}
      refine Contract.wp_mono (wp_lockThenTryAll a.m1 hsecond) fun j H hj => ?_
      rcases hj with ⟨rfl, rfl⟩ | ⟨hj, rfl⟩
      · refine (Set.empty_union _).trans ?_
        ext m
        simp only [Call.mutexes, Args.toList, Set.mem_ofPred_eq, List.mem_cons, List.mem_append,
          List.not_mem_nil, or_false]
        tauto
      · rw [if_neg (by omega)]
        simp [Rounded, Call.mutexes]
    · refine ⟨rfl, ?_⟩
      ext m
      exact mem_rotate a m

/-- `_unlock` gives back what a thread holds, if it is called with just that. -/
theorem wp_unlock_all {ms : List M} (h : ms.Nodup) :
    custody.wp (unlock ms) (fun _ H => H = ∅) {m | m ∈ ms} := by
  have hrest : ∀ {m : M} {ms : List M}, (m :: ms).Nodup →
      ({m' | m' ∈ m :: ms} : Set M) \ {m} = {m' | m' ∈ ms} := by
    intro m ms h
    ext m'
    simp only [Set.mem_sdiff, Set.mem_ofPred_eq, List.mem_cons, Set.mem_singleton_iff]
    constructor
    · rintro ⟨rfl | hm, hne⟩
      · exact absurd rfl hne
      · exact hm
    · intro hm
      refine ⟨.inr hm, ?_⟩
      rintro rfl
      exact (List.nodup_cons.mp h).1 hm
  induction ms using unlock.induct with
  | case1 => simp [unlock]
  | case2 m0 =>
    simp only [unlock, wp_unlock, hrest h]
    simp
  | case3 m0 m1 mn ih =>
    have h' := (List.nodup_cons.mp h).2
    simp only [unlock, Contract.wp_bind, wp_unlock, hrest h, hrest h']
    exact ⟨List.mem_cons_self, List.mem_cons_self, ih (List.nodup_cons.mp h').2⟩

end Lock

end Sync
