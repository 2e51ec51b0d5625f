import Mathlib.Data.Int.Basic
import SyncLib.Core.Monitor

/-!
# `latch`

The counter of `latch` is an atomic that is changed without the mutex, and waiting threads test
it with the mutex held: a waiter's test and its going to sleep are two steps, and the counter may
change in between. `ptrdiff_t` is read as `ℤ`.
-/

namespace Sync

open Core

namespace Latch

/-! ### The counter -/

/-- `count_.fetch_sub(1)`: the new counter and the old one. -/
def fetchSub (count : ℤ) : ℤ × ℤ := (count - 1, count)

/-- The decrement of `count_down_and_wait`, and whether the call goes on to `notify_all`. -/
def countDownAndWait (count : ℤ) : ℤ × Bool :=
  let r := fetchSub count
  (r.1, r.2 == 0)

/-- `count_down`. The argument is not used. -/
def countDown (_n : ℤ) (count : ℤ) : ℤ := (fetchSub count).1

def isReady (count : ℤ) : Bool := count == 0

@[simp] lemma isReady_eq_true (count : ℤ) : isReady count = true ↔ count = 0 := by
  simp [isReady]

@[simp] lemma isReady_eq_false (count : ℤ) : isReady count = false ↔ count ≠ 0 := by
  simp [isReady]

/-! ### The threads -/

/-- Where a thread is. -/
inductive Place
  | idle
  /-- In `count_down_and_wait`, before `notify_all`. -/
  | notifying
  /-- Before the mutex is taken, by the constructor of `lock`. -/
  | locking
  /-- With the mutex, before a test of the predicate. -/
  | testing
  /-- With the mutex, after a test that failed. -/
  | blocking
  /-- In `cv_.wait`, not notified. -/
  | asleep
  /-- Woken in `cv_.wait`, before the mutex is taken again. -/
  | woken
  deriving DecidableEq, Repr

def Place.asleepOn : Place → Option Unit
  | .asleep => some ()
  | _       => none

def Place.wake : Place → Place
  | .asleep => .woken
  | p       => p

/-- A call, a spurious wake-up, or the next step of a call. -/
inductive Move
  | countDownAndWait
  | countDown (n : ℤ)
  | wait
  | wakeUp
  | proceed
  deriving DecidableEq, Repr

inductive Event (T : Type*)
  | counted (t : T) (amount : ℤ)
  | returned (t : T)
  deriving DecidableEq, Repr

/-- The counter and the holder of the mutex, with the events so far, the newest first. -/
structure Shared (T : Type*) where
  count : ℤ
  owner : Option T
  log : List (Event T)

variable {T : Type*}

/-- One step of a thread: an atomic operation, taking or releasing the mutex, or a
notification. -/
def next (t : T) (s : Shared T) : Place → Move → Option (Shared T × Place × Signal Unit)
  | .idle, .countDownAndWait =>
    let r := countDownAndWait s.count
    let s' := { s with count := r.1, log := .counted t 1 :: s.log }
    if r.2 then some (s', .notifying, .none) else some (s', .locking, .none)
  | .idle, .countDown n =>
    some ({ s with count := countDown n s.count, log := .counted t n :: s.log }, .idle, .none)
  | .idle, .wait =>
    if isReady s.count then some ({ s with log := .returned t :: s.log }, .idle, .none)
    else some (s, .locking, .none)
  | .notifying, .proceed => some ({ s with log := .returned t :: s.log }, .idle, .all ())
  | .locking, .proceed | .woken, .proceed =>
    match s.owner with
    | none => some ({ s with owner := some t }, .testing, .none)
    | some _ => none
  | .testing, .proceed =>
    if isReady s.count then
      some ({ s with owner := none, log := .returned t :: s.log }, .idle, .none)
    else some (s, .blocking, .none)
  | .blocking, .proceed => some ({ s with owner := none }, .asleep, .none)
  | .asleep, .wakeUp => some (s, .woken, .none)
  | _, _ => none

/-- All threads around one latch. -/
def monitor : Monitor T (Shared T) Place Unit Move where
  next := next
  asleepOn := Place.asleepOn
  wake := Place.wake

/-- A latch that has just been constructed, all threads outside it. -/
def start (n : ℤ) : Config T (Shared T) Place := ⟨⟨n, none, []⟩, fun _ => .idle⟩

lemma notify_eq [Fintype T] (p : Place) : (monitor : Monitor T _ _ _ _).notify () p = p.wake := by
  cases p <;> rfl

/-! ### The steps -/

/-- The steps of the threads, one constructor for each branch of the methods. -/
inductive Step [DecidableEq T] (s : Config T (Shared T) Place) :
    T → Move → Config T (Shared T) Place → Prop
  | arriveNotify {t : T} (hp : s.pc t = .idle) (hc : s.shared.count = 0) :
      Step s t .countDownAndWait
        ⟨{ s.shared with count := s.shared.count - 1, log := .counted t 1 :: s.shared.log },
          Function.update s.pc t .notifying⟩
  | arrive {t : T} (hp : s.pc t = .idle) (hc : s.shared.count ≠ 0) :
      Step s t .countDownAndWait
        ⟨{ s.shared with count := s.shared.count - 1, log := .counted t 1 :: s.shared.log },
          Function.update s.pc t .locking⟩
  | countDown {t : T} {n : ℤ} (hp : s.pc t = .idle) :
      Step s t (.countDown n)
        ⟨{ s.shared with count := s.shared.count - 1, log := .counted t n :: s.shared.log },
          Function.update s.pc t .idle⟩
  | waitReady {t : T} (hp : s.pc t = .idle) (hc : s.shared.count = 0) :
      Step s t .wait
        ⟨{ s.shared with log := .returned t :: s.shared.log }, Function.update s.pc t .idle⟩
  | wait {t : T} (hp : s.pc t = .idle) (hc : s.shared.count ≠ 0) :
      Step s t .wait ⟨s.shared, Function.update s.pc t .locking⟩
  | notifyAll {t : T} (hp : s.pc t = .notifying) :
      Step s t .proceed
        ⟨{ s.shared with log := .returned t :: s.shared.log },
          fun u => (Function.update s.pc t .idle u).wake⟩
  | lock {t : T} (hp : s.pc t = .locking ∨ s.pc t = .woken) (ho : s.shared.owner = none) :
      Step s t .proceed
        ⟨{ s.shared with owner := some t }, Function.update s.pc t .testing⟩
  | pass {t : T} (hp : s.pc t = .testing) (hc : s.shared.count = 0) :
      Step s t .proceed
        ⟨{ s.shared with owner := none, log := .returned t :: s.shared.log },
          Function.update s.pc t .idle⟩
  | fail {t : T} (hp : s.pc t = .testing) (hc : s.shared.count ≠ 0) :
      Step s t .proceed ⟨s.shared, Function.update s.pc t .blocking⟩
  | sleep {t : T} (hp : s.pc t = .blocking) :
      Step s t .proceed ⟨{ s.shared with owner := none }, Function.update s.pc t .asleep⟩
  | wakeUp {t : T} (hp : s.pc t = .asleep) :
      Step s t .wakeUp ⟨s.shared, Function.update s.pc t .woken⟩

/-- Every step of the interleaving is one of these. -/
theorem step_of_machine [Fintype T] [DecidableEq T] {s s' : Config T (Shared T) Place}
    {a : Act T Move} (hs : monitor.machine.step s a = some s') : Step s a.tid a.move s' := by
  obtain ⟨t, m, w⟩ := a
  obtain ⟨sh, p, sig, hn, hd⟩ := Monitor.step_eq_some.mp hs
  change next t s.shared (s.pc t) m = some (sh, p, sig) at hn
  simp only at hd ⊢
  cases hp : s.pc t <;> cases m <;> simp only [hp, next, reduceCtorEq] at hn
  case idle.countDownAndWait =>
    cases hc : (countDownAndWait s.shared.count).2 <;>
      simp only [hc, Bool.false_eq_true, if_true, if_false, Option.some.injEq,
        Prod.mk.injEq] at hn <;>
      obtain ⟨rfl, rfl, rfl⟩ := hn <;>
      obtain ⟨-, rfl⟩ := Monitor.deliver_none.mp hd
    · exact .arrive hp (by simpa [countDownAndWait, fetchSub] using hc)
    · exact .arriveNotify hp (by simpa [countDownAndWait, fetchSub] using hc)
  case idle.countDown n =>
    simp only [Option.some.injEq, Prod.mk.injEq] at hn
    obtain ⟨rfl, rfl, rfl⟩ := hn
    obtain ⟨-, rfl⟩ := Monitor.deliver_none.mp hd
    exact .countDown hp
  case idle.wait =>
    cases hc : isReady s.shared.count <;>
      simp only [hc, Bool.false_eq_true, if_true, if_false, Option.some.injEq,
        Prod.mk.injEq] at hn <;>
      obtain ⟨rfl, rfl, rfl⟩ := hn <;>
      obtain ⟨-, rfl⟩ := Monitor.deliver_none.mp hd
    · exact .wait hp (by simpa using hc)
    · exact .waitReady hp (by simpa using hc)
  case notifying.proceed =>
    simp only [Option.some.injEq, Prod.mk.injEq] at hn
    obtain ⟨rfl, rfl, rfl⟩ := hn
    obtain ⟨-, rfl⟩ := Monitor.deliver_all.mp hd
    simp only [notify_eq]
    exact .notifyAll hp
  case testing.proceed =>
    cases hc : isReady s.shared.count <;>
      simp only [hc, Bool.false_eq_true, if_true, if_false, Option.some.injEq,
        Prod.mk.injEq] at hn <;>
      obtain ⟨rfl, rfl, rfl⟩ := hn <;>
      obtain ⟨-, rfl⟩ := Monitor.deliver_none.mp hd
    · exact .fail hp (by simpa using hc)
    · exact .pass hp (by simpa using hc)
  case blocking.proceed =>
    simp only [Option.some.injEq, Prod.mk.injEq] at hn
    obtain ⟨rfl, rfl, rfl⟩ := hn
    obtain ⟨-, rfl⟩ := Monitor.deliver_none.mp hd
    exact .sleep hp
  case asleep.wakeUp =>
    simp only [Option.some.injEq, Prod.mk.injEq] at hn
    obtain ⟨rfl, rfl, rfl⟩ := hn
    obtain ⟨-, rfl⟩ := Monitor.deliver_none.mp hd
    exact .wakeUp hp
  all_goals
    cases ho : s.shared.owner <;> simp only [ho, reduceCtorEq, Option.some.injEq,
      Prod.mk.injEq] at hn
    obtain ⟨rfl, rfl, rfl⟩ := hn
    obtain ⟨-, rfl⟩ := Monitor.deliver_none.mp hd
    exact .lock (by simp [hp]) ho

end Latch

end Sync
