import Mathlib.Data.Int.Basic
import SyncLib.Core.Monitor

/-!
# `barrier` and `flex_barrier`

The counters of the two barrier classes and the sections their methods run under the mutex,
and the threads that call them. `ptrdiff_t` is read as `ℤ`: the counters stay between `0` and
the number of threads (`Barrier.Counts.range`).
-/

namespace Sync

open Core

/-! ### barrier -/

structure Barrier where
  count : ℤ
  threads : ℤ
  deriving DecidableEq, Repr

namespace Barrier

/-- The constructor. -/
def new (numThreads : ℤ) : Barrier := ⟨numThreads, numThreads⟩

/-- The section of `arrive_and_wait`; `true` for the last thread to arrive, which goes on to
`notify_all`, `false` for a thread that goes on to `cv_.wait`. -/
def arriveAndWait (b : Barrier) : Barrier × Bool :=
  let count := b.count - 1
  if count = 0 then ({ b with count := b.threads }, true) else ({ b with count }, false)

/-- The section of `arrive_and_drop`; `true` for the last thread to arrive. -/
def arriveAndDrop (b : Barrier) : Barrier × Bool :=
  let count := b.count - 1
  let threads := b.threads - 1
  if count = 0 then (⟨threads, threads⟩, true) else (⟨count, threads⟩, false)

/-- The predicate of `cv_.wait`. -/
def released (b : Barrier) : Bool := b.count == b.threads

lemma arriveAndWait_last {b b' : Barrier} :
    b.arriveAndWait = (b', true) ↔ b.count = 1 ∧ b' = ⟨b.threads, b.threads⟩ := by
  simp only [arriveAndWait, sub_eq_zero]
  split_ifs with h <;> simp [h, eq_comm]

lemma arriveAndWait_notLast {b b' : Barrier} :
    b.arriveAndWait = (b', false) ↔ b.count ≠ 1 ∧ b' = ⟨b.count - 1, b.threads⟩ := by
  simp only [arriveAndWait, sub_eq_zero]
  split_ifs with h <;> simp [h, eq_comm]

lemma arriveAndDrop_last {b b' : Barrier} :
    b.arriveAndDrop = (b', true) ↔ b.count = 1 ∧ b' = ⟨b.threads - 1, b.threads - 1⟩ := by
  simp only [arriveAndDrop, sub_eq_zero]
  split_ifs with h <;> simp [h, eq_comm]

lemma arriveAndDrop_notLast {b b' : Barrier} :
    b.arriveAndDrop = (b', false) ↔ b.count ≠ 1 ∧ b' = ⟨b.count - 1, b.threads - 1⟩ := by
  simp only [arriveAndDrop, sub_eq_zero]
  split_ifs with h <;> simp [h, eq_comm]

@[simp] lemma released_eq_true (b : Barrier) : b.released = true ↔ b.count = b.threads := by
  simp [released]

@[simp] lemma released_eq_false (b : Barrier) : b.released = false ↔ b.count ≠ b.threads := by
  simp [released]

end Barrier

/-! ### flex_barrier -/

/-- The counters of `flex_barrier`, with the number of calls of `compl_` so far. -/
structure FlexBarrier where
  count : ℤ
  threads : ℤ
  calls : ℕ
  deriving DecidableEq, Repr

namespace FlexBarrier

/-- The constructors; the completion function is an argument of the methods. -/
def new (numThreads : ℤ) : FlexBarrier := ⟨numThreads, numThreads, 0⟩

/-- The completion function of the constructor without one. -/
def defaultCompletion : ℕ → ℤ := fun _ => -1

/-- `if (val = compl_(); val != -1) threads_ = val;`, where `compl k` is what `compl_` returns
on its call number `k`. -/
def complete (compl : ℕ → ℤ) (b : FlexBarrier) : FlexBarrier :=
  let val := compl b.calls
  { b with threads := if val ≠ -1 then val else b.threads, calls := b.calls + 1 }

/-- The section of `arrive_and_wait`. -/
def arriveAndWait (compl : ℕ → ℤ) (b : FlexBarrier) : FlexBarrier × Bool :=
  let b := { b with count := b.count - 1 }
  if b.count = 0 then (b.complete compl, true) else (b, false)

/-- The section of `arrive_and_drop`. -/
def arriveAndDrop (compl : ℕ → ℤ) (b : FlexBarrier) : FlexBarrier × Bool :=
  let b := { b with count := b.count - 1 }
  if b.count = 0 then (b.complete compl, true) else ({ b with threads := b.threads - 1 }, false)

/-- The predicate of `cv_.wait`. -/
def released (b : FlexBarrier) : Bool := b.count == b.threads

@[simp] lemma released_eq_true (b : FlexBarrier) : b.released = true ↔ b.count = b.threads := by
  simp [released]

@[simp] lemma released_eq_false (b : FlexBarrier) :
    b.released = false ↔ b.count ≠ b.threads := by
  simp [released]

end FlexBarrier

/-! ### The threads that use a barrier -/

/-- The methods of a barrier class: the sections of the two arrivals, and the predicate that
waiting threads test. -/
structure BarrierClass (β : Type*) where
  arriveAndWait : β → β × Bool
  arriveAndDrop : β → β × Bool
  released : β → Bool

def barrier : BarrierClass Barrier :=
  ⟨Barrier.arriveAndWait, Barrier.arriveAndDrop, Barrier.released⟩

def flexBarrier (compl : ℕ → ℤ) : BarrierClass FlexBarrier :=
  ⟨FlexBarrier.arriveAndWait compl, FlexBarrier.arriveAndDrop compl, FlexBarrier.released⟩

namespace BarrierClass

/-- Where a participant is. The argument is the phase in which it arrived. -/
inductive Place
  | idle
  /-- In `cv_.wait`, not notified. -/
  | asleep (k : ℕ)
  /-- Woken in `cv_.wait`; the mutex and the predicate are still ahead. -/
  | woken (k : ℕ)
  /-- The last arrival, in `arrive_and_wait`, before its `notify_all`. -/
  | notifying (k : ℕ)
  /-- The last arrival, in `arrive_and_drop`, before its `notify_all`. -/
  | dropping (k : ℕ)
  /-- `arrive_and_drop` has returned. -/
  | gone
  deriving DecidableEq, Repr

/-- Whether the place is in `cv_.wait` without a notification. -/
def Place.asleepOn : Place → Option Unit
  | .asleep _ => some ()
  | _         => none

/-- The place after a notification of all sleepers. -/
def Place.wake : Place → Place
  | .asleep k => .woken k
  | p         => p

/-- A call, a spurious wake-up, or the next step of a call. -/
inductive Move
  | arriveAndWait
  | arriveAndDrop
  | wakeUp
  | proceed
  deriving DecidableEq, Repr

/-- What happened to participant `t` in its call of phase `k`. -/
inductive Event (T : Type*)
  | arrived (t : T) (k : ℕ)
  | dropped (t : T) (k : ℕ)
  | returned (t : T) (k : ℕ)
  deriving DecidableEq, Repr

/-- The barrier, with the number of completed phases and the events so far, the newest first.
No step reads the last two. -/
structure Shared (β T : Type*) where
  bar : β
  phase : ℕ
  log : List (Event T)

variable {β T : Type*} (C : BarrierClass β)

/-- `while (!pred()) wait(lock)`, from a test of the predicate with the mutex held to the return
of `arrive_and_wait` or the next sleep. -/
def waitLoop (t : T) (k : ℕ) (s : Shared β T) : Shared β T × Place × Signal Unit :=
  if C.released s.bar then ({ s with log := .returned t k :: s.log }, .idle, .none)
  else (s, .asleep k, .none)

/-- One step of participant `t`: a section under the mutex, a wake-up or a notification. -/
def next (t : T) (s : Shared β T) : Place → Move → Option (Shared β T × Place × Signal Unit)
  | .idle, .arriveAndWait =>
    let r := C.arriveAndWait s.bar
    let s' := { s with bar := r.1, log := .arrived t s.phase :: s.log }
    if r.2 then some ({ s' with phase := s.phase + 1 }, .notifying s.phase, .none)
    else some (C.waitLoop t s.phase s')
  | .idle, .arriveAndDrop =>
    let r := C.arriveAndDrop s.bar
    let s' := { s with bar := r.1, log := .dropped t s.phase :: s.log }
    if r.2 then some ({ s' with phase := s.phase + 1 }, .dropping s.phase, .none)
    else some (s', .gone, .none)
  | .asleep k, .wakeUp => some (s, .woken k, .none)
  | .woken k, .proceed => some (C.waitLoop t k s)
  | .notifying k, .proceed =>
    some ({ s with log := .returned t k :: s.log }, .idle, .all ())
  | .dropping _, .proceed => some (s, .gone, .all ())
  | _, _ => none

/-- All participants around one barrier. -/
def monitor : Monitor T (Shared β T) Place Unit Move where
  next := C.next
  asleepOn := Place.asleepOn
  wake := Place.wake

lemma notify_eq [Fintype T] (p : Place) : (C.monitor : Monitor T _ _ _ _).notify () p = p.wake := by
  cases p <;> rfl

/-- A barrier that has just been constructed, all participants outside it. -/
def start (b : β) : Config T (Shared β T) Place := ⟨⟨b, 0, []⟩, fun _ => .idle⟩

/-- The steps of the participants, one constructor for each branch of the methods. -/
inductive Step [DecidableEq T] (s : Config T (Shared β T) Place) :
    T → Move → Config T (Shared β T) Place → Prop
  | arriveLast {t : T} {b : β} (hp : s.pc t = .idle)
      (hb : C.arriveAndWait s.shared.bar = (b, true)) :
      Step s t .arriveAndWait
        ⟨⟨b, s.shared.phase + 1, .arrived t s.shared.phase :: s.shared.log⟩,
          Function.update s.pc t (.notifying s.shared.phase)⟩
  | arrivePass {t : T} {b : β} (hp : s.pc t = .idle)
      (hb : C.arriveAndWait s.shared.bar = (b, false)) (hr : C.released b = true) :
      Step s t .arriveAndWait
        ⟨⟨b, s.shared.phase,
            .returned t s.shared.phase :: .arrived t s.shared.phase :: s.shared.log⟩,
          Function.update s.pc t .idle⟩
  | arriveSleep {t : T} {b : β} (hp : s.pc t = .idle)
      (hb : C.arriveAndWait s.shared.bar = (b, false)) (hr : C.released b = false) :
      Step s t .arriveAndWait
        ⟨⟨b, s.shared.phase, .arrived t s.shared.phase :: s.shared.log⟩,
          Function.update s.pc t (.asleep s.shared.phase)⟩
  | dropLast {t : T} {b : β} (hp : s.pc t = .idle)
      (hb : C.arriveAndDrop s.shared.bar = (b, true)) :
      Step s t .arriveAndDrop
        ⟨⟨b, s.shared.phase + 1, .dropped t s.shared.phase :: s.shared.log⟩,
          Function.update s.pc t (.dropping s.shared.phase)⟩
  | drop {t : T} {b : β} (hp : s.pc t = .idle)
      (hb : C.arriveAndDrop s.shared.bar = (b, false)) :
      Step s t .arriveAndDrop
        ⟨⟨b, s.shared.phase, .dropped t s.shared.phase :: s.shared.log⟩,
          Function.update s.pc t .gone⟩
  | wakeUp {t : T} {k : ℕ} (hp : s.pc t = .asleep k) :
      Step s t .wakeUp ⟨s.shared, Function.update s.pc t (.woken k)⟩
  | resume {t : T} {k : ℕ} (hp : s.pc t = .woken k) (hr : C.released s.shared.bar = true) :
      Step s t .proceed
        ⟨{ s.shared with log := .returned t k :: s.shared.log }, Function.update s.pc t .idle⟩
  | sleepAgain {t : T} {k : ℕ} (hp : s.pc t = .woken k)
      (hr : C.released s.shared.bar = false) :
      Step s t .proceed ⟨s.shared, Function.update s.pc t (.asleep k)⟩
  | notifyAll {t : T} {k : ℕ} (hp : s.pc t = .notifying k) :
      Step s t .proceed
        ⟨{ s.shared with log := .returned t k :: s.shared.log },
          fun u => (Function.update s.pc t .idle u).wake⟩
  | dropNotify {t : T} {k : ℕ} (hp : s.pc t = .dropping k) :
      Step s t .proceed
        ⟨s.shared, fun u => (Function.update s.pc t .gone u).wake⟩

/-- The interleaving takes exactly these steps, without a single notification. -/
theorem step_iff [Fintype T] [DecidableEq T] {s s' : Config T (Shared β T) Place}
    {a : Act T Move} :
    C.monitor.machine.step s a = some s' ↔ a.notified = none ∧ C.Step s a.tid a.move s' := by
  obtain ⟨t, m, w⟩ := a
  rw [Monitor.step_eq_some]
  constructor
  · rintro ⟨sh, p, sig, hn, hd⟩
    change C.next t s.shared (s.pc t) m = some (sh, p, sig) at hn
    simp only at hd ⊢
    cases hp : s.pc t <;> cases m <;> simp only [hp, next, waitLoop, reduceCtorEq] at hn
    case idle.arriveAndWait =>
      rcases hb : C.arriveAndWait s.shared.bar with ⟨b, last⟩
      cases last with
      | true =>
        simp only [hb, if_true, Option.some.injEq, Prod.mk.injEq] at hn
        obtain ⟨rfl, rfl, rfl⟩ := hn
        obtain ⟨rfl, rfl⟩ := Monitor.deliver_none.mp hd
        exact ⟨rfl, .arriveLast hp hb⟩
      | false =>
        simp only [hb, Bool.false_eq_true, if_false, Option.some.injEq] at hn
        cases hr : C.released b <;>
          simp only [hr, Bool.false_eq_true, if_true, if_false, Prod.mk.injEq] at hn <;>
          obtain ⟨rfl, rfl, rfl⟩ := hn <;>
          obtain ⟨rfl, rfl⟩ := Monitor.deliver_none.mp hd
        · exact ⟨rfl, .arriveSleep hp hb hr⟩
        · exact ⟨rfl, .arrivePass hp hb hr⟩
    case idle.arriveAndDrop =>
      rcases hb : C.arriveAndDrop s.shared.bar with ⟨b, last⟩
      cases last <;>
        simp only [hb, Bool.false_eq_true, if_true, if_false, Option.some.injEq,
          Prod.mk.injEq] at hn <;>
        obtain ⟨rfl, rfl, rfl⟩ := hn <;>
        obtain ⟨rfl, rfl⟩ := Monitor.deliver_none.mp hd
      · exact ⟨rfl, .drop hp hb⟩
      · exact ⟨rfl, .dropLast hp hb⟩
    case asleep.wakeUp k =>
      simp only [Option.some.injEq, Prod.mk.injEq] at hn
      obtain ⟨rfl, rfl, rfl⟩ := hn
      obtain ⟨rfl, rfl⟩ := Monitor.deliver_none.mp hd
      exact ⟨rfl, .wakeUp hp⟩
    case woken.proceed k =>
      cases hr : C.released s.shared.bar <;>
        simp only [hr, Bool.false_eq_true, if_true, if_false, Option.some.injEq,
          Prod.mk.injEq] at hn <;>
        obtain ⟨rfl, rfl, rfl⟩ := hn <;>
        obtain ⟨rfl, rfl⟩ := Monitor.deliver_none.mp hd
      · exact ⟨rfl, .sleepAgain hp hr⟩
      · exact ⟨rfl, .resume hp hr⟩
    case notifying.proceed k =>
      simp only [Option.some.injEq, Prod.mk.injEq] at hn
      obtain ⟨rfl, rfl, rfl⟩ := hn
      obtain ⟨rfl, rfl⟩ := Monitor.deliver_all.mp hd
      refine ⟨rfl, ?_⟩
      simp only [notify_eq]
      exact .notifyAll hp
    case dropping.proceed k =>
      simp only [Option.some.injEq, Prod.mk.injEq] at hn
      obtain ⟨rfl, rfl, rfl⟩ := hn
      obtain ⟨rfl, rfl⟩ := Monitor.deliver_all.mp hd
      refine ⟨rfl, ?_⟩
      simp only [notify_eq]
      exact .dropNotify hp
  · rintro ⟨hw, hstep⟩
    simp only at hw hstep
    subst hw
    cases hstep
    case notifyAll k hp =>
      exact ⟨_, .idle, .all (), by simp only [hp]; rfl, by simp [notify_eq]⟩
    case dropNotify k hp =>
      exact ⟨_, .gone, .all (), by simp only [hp]; rfl, by simp [notify_eq]⟩
    all_goals simp_all [monitor, next, waitLoop]

end BarrierClass

end Sync
