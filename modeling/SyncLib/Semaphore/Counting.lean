import SyncLib.Core.Baton
import SyncLib.Core.Bits

/-!
# `semaphore`

`post` notifies after it has released the mutex. A single post wakes one waiter and a bulk post all
of them, and any other thread may take the units first. The notifications that are under way still
cover the units that are left: a notified waiter takes a unit, or finds none.
-/

namespace Sync

open Core

namespace Semaphore

/-! ### The threads -/

/-- Where a thread is: outside, in `post` between the release of the mutex and the notification, in
a wait, or on its way out of it, where it waits for the mutex. -/
inductive Place
  | idle
  | notifyingOne
  | notifyingAll
  | asleep (timed : Bool)
  | woken (timed notified : Bool)
  deriving DecidableEq, Repr

/-- A call, up to its end, to its wait or to its notification, or the next step of a thread in a
call. `noTimeout` is what the wait on `cv_` returned. -/
inductive Move
  | post
  | postMany (count : UInt32)
  | notify
  | wait
  | waitFor
  | waitUntil
  | wakeUp
  | recheck (noTimeout : Bool)
  deriving DecidableEq, Repr

/-- So many units were posted, or a wait succeeded, or a timed wait returned `false`. -/
inductive Event (T : Type*)
  | posted (t : T) (units : ℕ)
  | waited (t : T)
  | failed (t : T)
  deriving DecidableEq, Repr

/-- `count_`, and what the calls so far have done, the last one first. -/
structure Shared (T : Type*) where
  count : UInt64
  log : List (Event T)

variable {T : Type*}

/-- The units posted so far. -/
def posted : List (Event T) → ℕ
  | []               => 0
  | .posted _ n :: l => posted l + n
  | _ :: l           => posted l

/-- The waits that have succeeded so far. -/
def waits : List (Event T) → ℕ
  | []             => 0
  | .waited _ :: l => waits l + 1
  | _ :: l         => waits l

/-- `--count_;` -/
def Shared.take (s : Shared T) (t : T) : Shared T :=
  { count := s.count - 1, log := .waited t :: s.log }

def Shared.fail (s : Shared T) (t : T) : Shared T := { s with log := .failed t :: s.log }

def post (t : T) (s : Shared T) : Shared T × Place :=
  ({ count := s.count + 1, log := .posted t 1 :: s.log }, .notifyingOne)

def postMany (t : T) (count : UInt32) (s : Shared T) : Shared T × Place :=
  ({ count := s.count + count.toUInt64, log := .posted t count.toNat :: s.log }, .notifyingAll)

/-- The test of the predicate in `wait`. -/
def wait (t : T) (s : Shared T) : Shared T × Place :=
  if s.count ≠ 0 then (s.take t, .idle) else (s, .asleep false)

/-- The test of the predicate in `wait_for` and `wait_until`, before the wait or after it. -/
def timedWait (t : T) (noTimeout : Bool) (s : Shared T) : Shared T × Place :=
  if s.count ≠ 0 then (s.take t, .idle)
  else if noTimeout then (s, .asleep true) else (s.fail t, .idle)

/-- One section under the mutex, the notification of a `post`, or the end of a wait. -/
def next (t : T) (s : Shared T) : Place → Move → Option (Shared T × Place × Signal Unit)
  | .idle, .post               => silently (post t s)
  | .idle, .postMany k         => silently (postMany t k s)
  | .notifyingOne, .notify     => some (s, .idle, .one ())
  | .notifyingAll, .notify     => some (s, .idle, .all ())
  | .idle, .wait               => silently (wait t s)
  | .idle, .waitFor            => silently (timedWait t true s)
  | .idle, .waitUntil          => silently (timedWait t true s)
  | .asleep timed, .wakeUp     => some (s, .woken timed false, .none)
  | .woken false _, .recheck _ => silently (wait t s)
  | .woken true _, .recheck b  => silently (timedWait t b s)
  | _, _                       => none

/-- The place of a thread on `cv_` after a notification. -/
def Place.wake : Place → Place
  | .asleep timed => .woken timed true
  | p             => p

def Place.asleepOn : Place → Option Unit
  | .asleep _ => some ()
  | _         => none

/-- All threads around one semaphore. -/
def monitor : Monitor T (Shared T) Place Unit Move where
  next := next
  asleepOn := Place.asleepOn
  wake := Place.wake

def start (count : UInt64) : Config T (Shared T) Place := ⟨⟨count, []⟩, fun _ => .idle⟩

/-! ### The steps -/

/-- The units that a call posts. -/
def Move.units : Move → ℕ
  | .post       => 1
  | .postMany k => k.toNat
  | _           => 0

/-- What a step of one thread does, one constructor for each effect. -/
inductive Effect (t : T) (s : Shared T) (p : Place) (m : Move) :
    Shared T → Place → Signal Unit → Prop
  | post (hp : p = .idle) (hm : m = .post) :
      Effect t s p m (Semaphore.post t s).1 .notifyingOne .none
  | postMany (k : UInt32) (hp : p = .idle) (hm : m = .postMany k) :
      Effect t s p m (Semaphore.postMany t k s).1 .notifyingAll .none
  | notifyOne (hp : p = .notifyingOne) : Effect t s p m s .idle (.one ())
  | notifyAll (hp : p = .notifyingAll) : Effect t s p m s .idle (.all ())
  | take (hp : p ≠ .notifyingAll) (hc : s.count ≠ 0) : Effect t s p m (s.take t) .idle .none
  | fail (hp : p ≠ .notifyingAll) (hc : s.count = 0) : Effect t s p m (s.fail t) .idle .none
  | sleep (timed : Bool) (hp : p ≠ .notifyingAll) (hc : s.count = 0) :
      Effect t s p m s (.asleep timed) .none
  | wakeUp (timed : Bool) (hp : p = .asleep timed) :
      Effect t s p m s (.woken timed false) .none

namespace Effect

variable {t : T} {s s' : Shared T} {p p' : Place} {m : Move} {sig : Signal Unit}

lemma of_wait (hp : p ≠ .notifyingAll) :
    Effect t s p m (wait t s).1 (wait t s).2 .none := by
  unfold Semaphore.wait
  by_cases hc : s.count = 0
  · simp only [hc, ne_eq, not_true_eq_false, if_false]
    exact .sleep false hp hc
  · simp only [hc, ne_eq, not_false_eq_true, if_true]
    exact .take hp hc

lemma of_timedWait (hp : p ≠ .notifyingAll) (b : Bool) :
    Effect t s p m (timedWait t b s).1 (timedWait t b s).2 .none := by
  unfold timedWait
  by_cases hc : s.count = 0
  · simp only [hc, ne_eq, not_true_eq_false, if_false]
    cases b with
    | true => exact .sleep true hp hc
    | false => exact .fail hp hc
  · simp only [hc, ne_eq, not_false_eq_true, if_true]
    exact .take hp hc

lemma of_next (h : next t s p m = some (s', p', sig)) : Effect t s p m s' p' sig := by
  cases p with
  | idle =>
    cases m with
    | post =>
      cases h
      exact .post rfl rfl
    | postMany k =>
      cases h
      exact .postMany k rfl rfl
    | wait =>
      cases h
      exact of_wait (by simp)
    | waitFor | waitUntil =>
      cases h
      exact of_timedWait (by simp) true
    | _ => cases h
  | notifyingOne =>
    cases m <;> cases h
    exact .notifyOne rfl
  | notifyingAll =>
    cases m <;> cases h
    exact .notifyAll rfl
  | asleep timed =>
    cases m <;> cases h
    exact .wakeUp timed rfl
  | woken timed notified =>
    cases timed with
    | false =>
      cases m <;> cases h
      exact of_wait (by simp)
    | true =>
      cases m <;> cases h
      exact of_timedWait (by simp) _

end Effect

/-! ### The count -/

/-- The count, when `initial` units were there before the calls of the log. -/
def Counts (initial : ℕ) (s : Shared T) : Prop :=
  s.count.toNat + waits s.log = initial + posted s.log

namespace Counts

variable {initial : ℕ} {t : T} {s s' : Shared T} {p p' : Place} {m : Move} {sig : Signal Unit}

lemma le (h : Counts initial s) : s.count.toNat ≤ initial + posted s.log := by
  unfold Counts at h
  omega

lemma step (h : Counts initial s) (he : Effect t s p m s' p' sig)
    (hrange : initial + posted s.log + m.units < 2 ^ 64) : Counts initial s' := by
  have hle := h.le
  cases he with
  | post hp hm =>
    subst hm
    have hadd : (s.count + 1).toNat = s.count.toNat + 1 :=
      toNat_add_of_lt (lt_of_le_of_lt (Nat.add_le_add_right hle 1) hrange)
    show (s.count + 1).toNat + waits s.log = initial + (posted s.log + 1)
    rw [hadd, Nat.add_right_comm, h, Nat.add_assoc]
  | postMany k hp hm =>
    subst hm
    have hk : k.toUInt64.toNat = k.toNat := UInt32.toNat_toUInt64 k
    have hadd : (s.count + k.toUInt64).toNat = s.count.toNat + k.toNat := by
      rw [toNat_add_of_lt, hk]
      rw [hk]
      exact lt_of_le_of_lt (Nat.add_le_add_right hle _) hrange
    show (s.count + k.toUInt64).toNat + waits s.log = initial + (posted s.log + k.toNat)
    rw [hadd, Nat.add_right_comm, h, Nat.add_assoc]
  | take hp hc =>
    show (s.count - 1).toNat + (waits s.log + 1) = initial + posted s.log
    rw [← h, ← toNat_sub_one_add_one hc, Nat.add_right_comm, Nat.add_assoc]
  | _ => exact h

end Counts

/-! ### The baton -/

/-- The single notifications that a thread has still to send. -/
def Place.toSend : Place → ℕ
  | .notifyingOne => 1
  | _             => 0

/-- Waiters that were notified and have not tested their predicate yet. -/
def Place.notified : Place → ℕ
  | .woken _ true => 1
  | _             => 0

/-- As many waiters as there are units can go on, and a notified one will look for a unit. -/
def baton : (monitor (T := T)).Baton () where
  avail s := s.count.toNat
  credit p := p.toSend + p.notified
  announces p := p = .notifyingAll
  gain := 1
  asleepOn_wake p := by cases p <;> rfl
  credit_le_wake p := by cases p <;> simp [monitor, Place.wake, Place.toSend, Place.notified]
  gain_le_wake p hp := by
    cases p <;> simp_all [monitor, Place.asleepOn, Place.wake, Place.toSend, Place.notified]
  announces_wake p hp := by
    subst hp
    rfl

lemma Place.credit_le_one (p : Place) : p.toSend + p.notified ≤ 1 := by
  unfold toSend notified
  split <;> split <;> simp_all

lemma Effect.keeps {t : T} {s s' : Shared T} {p p' : Place} {m : Move} {sig : Signal Unit}
    (h : Effect t s p m s' p' sig) (hpost : m = .post → s.count.toNat + 1 < 2 ^ 64) :
    baton.Keeps s p s' p' sig := by
  have hzero : ∀ {c : UInt64}, c = 0 → c.toNat = 0 := fun hc => by rw [hc]; rfl
  refine ⟨fun hp' => ?_, fun ha => ?_, ?_⟩
  · cases h with
    | sleep timed hp hc => exact hzero hc
    | _ => cases hp'
  · cases h with
    | post hp hm =>
      subst hp
      cases ha
    | postMany k hp hm => exact .inl rfl
    | notifyOne hp =>
      subst hp
      cases ha
    | notifyAll hp => exact .inr rfl
    | take hp hc => exact absurd ha hp
    | fail hp hc => exact absurd ha hp
    | sleep timed hp hc => exact absurd ha hp
    | wakeUp timed hp =>
      subst hp
      cases ha
  · cases h with
    | post hp hm =>
      subst hp
      have hadd : (s.count + 1).toNat = s.count.toNat + 1 := toNat_add_of_lt (hpost hm)
      exact .inr (.inr (.inr hadd.le))
    | postMany k hp hm => exact .inr (.inl rfl)
    | notifyOne hp =>
      subst hp
      exact .inr (.inr (.inr le_rfl))
    | notifyAll hp => exact .inl rfl
    | take hp hc =>
      refine .inr (.inr (.inr ?_))
      show (s.count - 1).toNat + (p.toSend + p.notified) ≤ s.count.toNat
      rw [← toNat_sub_one_add_one hc]
      exact Nat.add_le_add_left p.credit_le_one _
    | fail hp hc => exact .inr (.inr (.inl (hzero hc)))
    | sleep timed hp hc => exact .inr (.inr (.inl (hzero hc)))
    | wakeUp timed hp =>
      subst hp
      exact .inr (.inr (.inr le_rfl))

/-! ### The law -/

/-- The units stay below the range of `unsigned long`. -/
def InRange (initial : UInt64) (s : Config T (Shared T) Place) (a : Act T Move) : Prop :=
  initial.toNat + posted s.shared.log + a.move.units < 2 ^ 64

instance (initial : UInt64) (s : Config T (Shared T) Place) (a : Act T Move) :
    Decidable (InRange initial s a) :=
  inferInstanceAs (Decidable (_ < _))

variable [Fintype T] [DecidableEq T] {initial : UInt64} {s s' : Config T (Shared T) Place}

/-- What `count_` says about the calls, and who sleeps. -/
structure Law (initial : UInt64) (s : Config T (Shared T) Place) : Prop where
  count_eq : s.shared.count.toNat + waits s.shared.log = initial.toNat + posted s.shared.log
  /-- Timed waits that return `false` leave `count_` alone, and so do waits that go on. -/
  failed : ∀ a s', monitor.machine.step s a = some s' →
    (s'.shared.log = s.shared.log ∨ s'.shared.log = .failed a.tid :: s.shared.log) →
    s'.shared.count = s.shared.count
  sleeper : (∃ t timed, s.pc t = .asleep timed) →
    (∃ u, s.pc u = .notifyingAll) ∨
      s.shared.count.toNat ≤ tally Place.toSend s.pc + tally Place.notified s.pc

lemma count_eq_of_failed {a : Act T Move} (hs : monitor.machine.step s a = some s')
    (hlog : s'.shared.log = s.shared.log ∨ s'.shared.log = .failed a.tid :: s.shared.log) :
    s'.shared.count = s.shared.count := by
  obtain ⟨sh, p, sig, hn, hd⟩ := Monitor.step_eq_some.mp hs
  rw [Monitor.shared_of_deliver hd] at hlog ⊢
  have heffect : Effect a.tid s.shared (s.pc a.tid) a.move sh p sig := Effect.of_next hn
  cases heffect with
  | post hp hm => simp [post] at hlog
  | postMany k hp hm => simp [postMany] at hlog
  | take hp hc => simp [Shared.take] at hlog
  | _ => rfl

/-- The units are covered in every run in which no single post wraps `count_` around. -/
lemma covered_of_runs {ok : Config T (Shared T) Place → Act T Move → Prop}
    (hok : ∀ s a, ok s a → a.move = .post → s.shared.count.toNat + 1 < 2 ^ 64)
    (h : monitor.machine.Runs ok (start initial) s) : baton.Covered s := by
  refine h.invariant (I := baton.Covered) ?_ fun u a u' hu ha hs => ?_
  · rintro ⟨t, ht⟩
    cases ht
  · exact hu.step (fun _ _ _ hn => (Effect.of_next hn).keeps (hok u a ha)) hs

/-- In every run whose units stay in range, `count_` is what was posted and not yet waited for, a
timed wait that fails changes nothing, and as long as somebody sleeps who was not notified, a
`notify_all` is still to come, or the units that are left are covered by single notifications to
come and by notified waiters that have not looked yet. -/
theorem units_law_of_runs (h : monitor.machine.Runs (InRange initial) (start initial) s) :
    Law initial s := by
  have hinv : Counts initial.toNat s.shared ∧ baton.Covered s := by
    refine h.invariant (I := fun s => Counts initial.toNat s.shared ∧ baton.Covered s) ⟨?_, ?_⟩ ?_
    · rfl
    · rintro ⟨t, ht⟩
      cases ht
    · rintro u a u' ⟨hcounts, hcovered⟩ hrange hs
      have hpost : a.move = .post → u.shared.count.toNat + 1 < 2 ^ 64 := by
        intro hm
        rw [InRange, hm] at hrange
        exact lt_of_le_of_lt (Nat.add_le_add_right hcounts.le 1) hrange
      obtain ⟨sh, p, sig, hn, hd⟩ := Monitor.step_eq_some.mp hs
      refine ⟨?_, hcovered.step (fun _ _ _ hn => (Effect.of_next hn).keeps hpost) hs⟩
      rw [Monitor.shared_of_deliver hd]
      exact hcounts.step (Effect.of_next hn) hrange
  refine ⟨hinv.1, fun _ _ => count_eq_of_failed, fun hsleep => ?_⟩
  obtain ⟨t, timed, ht⟩ := hsleep
  rw [← tally_add]
  exact hinv.2 ⟨t, by rw [ht]; rfl⟩

/-- Two threads wait, and a third one posts a unit and notifies one of them. A fourth thread takes
the unit, and the third one posts another. -/
theorem units_law_of_runs_four : ∃ s : Config (Fin 4) (Shared (Fin 4)) Place,
    s.pc 0 = .woken false true ∧ s.pc 1 = .asleep true ∧ s.pc 2 = .notifyingOne ∧
      s.shared.count = 1 ∧ Law 0 s := by
  have hrun : (monitor.machine.runWhile (InRange 0) (start 0)
      [⟨(0 : Fin 4), .wait, none⟩, ⟨1, .waitFor, none⟩, ⟨2, .post, none⟩,
        ⟨2, .notify, some 0⟩, ⟨3, .wait, none⟩, ⟨2, .post, none⟩]).any
      (fun s => s.pc 0 == .woken false true && s.pc 1 == .asleep true &&
        s.pc 2 == .notifyingOne && s.shared.count == 1) = true := by
    decide +kernel
  obtain ⟨s, hs, hp⟩ := Machine.exists_runs_of_runWhile _ _ hrun
  simp only [Bool.and_eq_true, beq_iff_eq] at hp
  obtain ⟨⟨⟨h₀, h₁⟩, h₂⟩, hcount⟩ := hp
  exact ⟨s, h₀, h₁, h₂, hcount, units_law_of_runs hs⟩

end Semaphore

end Sync
