import SyncLib.Core.Part

/-!
# The code of a mutex

A mutex is a monitor whose threads lock, try to lock and unlock: `MutexCode` says by which steps the
calls begin, and how one sees that a call is over. `Lawful` is what a caller relies on: one thread
at most holds the mutex, and whoever sleeps in a call has somebody who holds the mutex or is awake
in a call of its own.
-/

namespace Core

inductive MutexCall
  | lock
  | tryLock
  | unlock
  deriving DecidableEq, Repr

/-- The answer of a call that is over, and whether the thread then holds the mutex. -/
structure MutexEnd where
  answer : Bool
  holds : Bool

/-- What a call leaves, for a thread that has held the mutex before or has not. -/
def MutexCall.Leaves (had : Bool) (e : MutexEnd) : MutexCall → Prop
  | .lock    => e.holds = true
  | .tryLock => e.holds = (had || e.answer) ∧ (had && e.answer) = false
  | .unlock  => e.holds = false

/-- Whether a thread in the middle of a call counts as the holder. An `unlock` has given the mutex
up when it begins. -/
def MutexCall.during (had : Bool) : MutexCall → Bool
  | .unlock => false
  | _       => had

variable {T σ π χ ι : Type*}

/-- The threads of a mutex, the place of a thread between the calls, the steps by which a call
begins, and what is left of one that is over. -/
structure MutexCode (T σ π χ ι : Type*) where
  monitor : Monitor T σ π χ ι
  start : σ
  rest : Bool → π
  begins : MutexCall → ι → Bool
  ended : T → σ → π → Option MutexEnd
  rest_of_ended : ∀ {t s p e}, ended t s p = some e → p = rest e.holds
  asleepOn_rest : ∀ b, monitor.asleepOn (rest b) = none

namespace MutexCode

/-- A step that a caller may take at the place `p`: a call begins, or goes on. -/
def Goes (M : MutexCode T σ π χ ι) (within : MutexCall → π → Prop) (k : MutexCall) (had : Bool)
    (p : π) (m : ι) : Prop :=
  p = M.rest had ∧ M.begins k m = true ∧ (k = .lock → had = false) ∧ (k = .unlock → had = true) ∨
    within k p

/-- What a caller relies on. The invariant is about the threads and about who holds the mutex;
`within` is where a thread is in the middle of a call. -/
structure Lawful [Fintype T] [DecidableEq T] [DecidableEq χ] (M : MutexCode T σ π χ ι) where
  Inv : Config T σ π → (T → Bool) → Prop
  within : MutexCall → π → Prop
  start : Inv ⟨M.start, fun _ => M.rest false⟩ fun _ => false
  step : ∀ {c c' has t k m s' p' sig w}, Inv c has → M.Goes within k (has t) (c.pc t) m →
    M.monitor.next t c.shared (c.pc t) m = some (s', p', sig) →
    M.monitor.deliver ⟨s', Function.update c.pc t p'⟩ sig w = some c' →
      (∀ e, M.ended t s' p' = some e →
        k.Leaves (has t) e ∧ Inv c' (Function.update has t e.holds)) ∧
      (M.ended t s' p' = none → within k p' ∧ Inv c' (Function.update has t (k.during (has t))))
  within_wake : ∀ {k p}, within k p → within k (M.monitor.wake p)
  not_within_rest : ∀ {k b}, ¬ within k (M.rest b)
  /-- Only `lock` sleeps. -/
  lock_of_asleep : ∀ {k p}, within k p → M.monitor.asleepOn p ≠ none → k = .lock
  exclusive : ∀ {c has t u}, Inv c has → has t = true → has u = true → t = u
  sleeper : ∀ {c has t}, Inv c has → M.monitor.asleepOn (c.pc t) ≠ none →
    ∃ u, has u = true ∨ (∃ k, within k (c.pc u)) ∧ M.monitor.asleepOn (c.pc u) = none

end MutexCode

end Core
