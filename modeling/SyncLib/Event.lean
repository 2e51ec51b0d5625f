import Mathlib.Data.List.Count
import Mathlib.Tactic.Common
import SyncLib.Core.Baton

/-!
# `auto_event`

`signal` sets the flag and notifies one waiter after it has released the mutex; a successful `wait`
clears the flag. Signals that meet a set flag are lost, and the flag may be consumed by a newcomer
before the waiter that was notified has the mutex again: but whoever was notified looks at the flag
once more before it gives up, so nobody sleeps at a set flag that nobody else will look at.
-/

namespace Sync

open Core

namespace AutoEvent

/-! ### The threads -/

/-- Where a thread is: outside, in `signal` between the release of the mutex and the notification,
in `cv_.wait` or `cv_.wait_for`, or on its way out of it, where it waits for the mutex. -/
inductive Place
  | idle
  | notifying
  | asleep (timed : Bool)
  | woken (timed notified : Bool)
  deriving DecidableEq, Repr

/-- A call, up to its end, to its wait or to its notification, or the next step of a thread in a
call: it wakes up, spuriously or because its time is over, and tests the predicate again. `inTime`
is whether there is time left to wait. -/
inductive Move
  | signal
  | wait
  | waitFor (inTime : Bool)
  | notify
  | wakeUp
  | recheck (inTime : Bool)
  deriving DecidableEq, Repr

/-- What a section under the mutex did: it set the flag, it was the end of a successful wait, or of
a `wait_for` that returned `false`. -/
inductive Event (T : Type*)
  | signaled (t : T)
  | waited (t : T)
  | failed (t : T)
  deriving DecidableEq, Repr

/-- `signaled_`, and the sections so far, the last one first. -/
structure Shared (T : Type*) where
  signaled : Bool
  log : List (Event T)

variable {T : Type*}

def signal (t : T) (s : Shared T) : Shared T × Place :=
  (⟨true, .signaled t :: s.log⟩, .notifying)

/-- What follows the loop of a wait whose predicate holds. -/
def Shared.consume (s : Shared T) (t : T) : Shared T := ⟨false, .waited t :: s.log⟩

/-- A `wait_for` returns `false`. -/
def Shared.giveUp (s : Shared T) (t : T) : Shared T := { s with log := .failed t :: s.log }

/-- The loop of `wait`. -/
def wait (t : T) (s : Shared T) : Shared T × Place :=
  if s.signaled then (s.consume t, .idle) else (s, .asleep false)

/-- The loop of `wait_for`: a wait that times out is followed by a last test of the predicate. -/
def waitFor (t : T) (inTime : Bool) (s : Shared T) : Shared T × Place :=
  if s.signaled then (s.consume t, .idle)
  else if inTime then (s, .asleep true) else (s.giveUp t, .idle)

/-- One section under the mutex, a notification, or the end of a wait. -/
def next (t : T) (s : Shared T) : Place → Move → Option (Shared T × Place × Signal Unit)
  | .idle, .signal             => silently (signal t s)
  | .idle, .wait               => silently (wait t s)
  | .idle, .waitFor b          => silently (waitFor t b s)
  | .notifying, .notify        => some (s, .idle, .one ())
  | .asleep timed, .wakeUp     => some (s, .woken timed false, .none)
  | .woken false _, .recheck _ => silently (wait t s)
  | .woken true _, .recheck b  => silently (waitFor t b s)
  | _, _                       => none

/-- The place of a thread on `cv_` after a notification. -/
def Place.wake : Place → Place
  | .asleep timed => .woken timed true
  | p             => p

def Place.asleepOn : Place → Option Unit
  | .asleep _ => some ()
  | _         => none

/-- All threads around one event. -/
def monitor : Monitor T (Shared T) Place Unit Move where
  next := next
  asleepOn := Place.asleepOn
  wake := Place.wake

def start (signaled : Bool) : Config T (Shared T) Place := ⟨⟨signaled, []⟩, fun _ => .idle⟩

/-! ### The steps -/

/-- What a step of one thread does, one constructor for each effect. -/
inductive Effect (t : T) (s : Shared T) (p : Place) : Shared T → Place → Signal Unit → Prop
  | signal (hp : p = .idle) : Effect t s p ⟨true, .signaled t :: s.log⟩ .notifying .none
  | consume (hs : s.signaled = true) : Effect t s p (s.consume t) .idle .none
  | giveUp (hs : s.signaled = false) : Effect t s p (s.giveUp t) .idle .none
  | sleep (timed : Bool) (hs : s.signaled = false) : Effect t s p s (.asleep timed) .none
  | notify (hp : p = .notifying) : Effect t s p s .idle (.one ())
  | wakeUp (timed : Bool) (hp : p = .asleep timed) : Effect t s p s (.woken timed false) .none

namespace Effect

variable {t : T} {s s' : Shared T} {p p' : Place} {m : Move} {sig : Signal Unit}

lemma of_wait : Effect t s p (wait t s).1 (wait t s).2 .none := by
  unfold wait
  split_ifs with hs
  · exact .consume hs
  · exact .sleep false (by simpa using hs)

lemma of_waitFor (b : Bool) : Effect t s p (waitFor t b s).1 (waitFor t b s).2 .none := by
  unfold waitFor
  split_ifs with hs hb
  · exact .consume hs
  · exact .sleep true (by simpa using hs)
  · exact .giveUp (by simpa using hs)

lemma of_next (h : next t s p m = some (s', p', sig)) : Effect t s p s' p' sig := by
  unfold next silently at h
  split at h <;> simp only [Option.some.injEq, Prod.mk.injEq, reduceCtorEq] at h <;>
    obtain ⟨rfl, rfl, rfl⟩ := h
  · exact .signal rfl
  · exact of_wait
  · exact of_waitFor _
  · exact .notify rfl
  · exact .wakeUp _ rfl
  · exact of_wait
  · exact of_waitFor _

end Effect

/-! ### The baton -/

/-- Notifications still to be sent, and waiters that were notified and have not tested the predicate
yet. -/
def Place.notified : Place → ℕ
  | .notifying    => 1
  | .woken _ true => 1
  | _             => 0

/-- A set flag can be consumed by one thread, and a notified waiter will look at it. -/
def baton : (monitor (T := T)).Baton () where
  avail s := s.signaled.toNat
  credit := Place.notified
  announces _ := False
  gain := 1
  asleepOn_wake p := by cases p <;> rfl
  credit_le_wake p := by cases p <;> simp [monitor, Place.wake, Place.notified]
  gain_le_wake p hp := by
    cases p <;> simp_all [monitor, Place.asleepOn, Place.wake, Place.notified]
  announces_wake _ := id

lemma Effect.keeps {t : T} {s s' : Shared T} {p p' : Place} {sig : Signal Unit}
    (h : Effect t s p s' p' sig) : baton.Keeps s p s' p' sig := by
  refine ⟨fun hp => ?_, False.elim, .inr (.inr ?_)⟩
  · cases h with
    | sleep timed hs => simp [baton, hs]
    | _ => cases hp
  · cases h with
    | signal hp =>
      subst hp
      right
      simp [baton, Place.notified, Monitor.Baton.sent]
    | consume hs => exact .inl rfl
    | giveUp hs => exact .inl (by simp [baton, Shared.giveUp, hs])
    | sleep timed hs => exact .inl (by simp [baton, hs])
    | notify hp =>
      subst hp
      exact .inr le_rfl
    | wakeUp timed hp =>
      subst hp
      exact .inr le_rfl

/-! ### What the sections leave -/

/-- The flag after these sections: set by a signal, and cleared by a successful wait. -/
def flagAfter (init : Bool) : List (Event T) → Bool
  | []               => init
  | .signaled _ :: _ => true
  | .waited _ :: _   => false
  | .failed _ :: l   => flagAfter init l

/-- Every successful wait found the flag set. -/
def Consumes (init : Bool) (log : List (Event T)) : Prop :=
  ∀ t l, .waited t :: l <:+ log → flagAfter init l = true

/-- `signaled_` is what the sections leave, and each wait consumed what was left to it. -/
structure Recorded (init : Bool) (s : Shared T) : Prop where
  flag_eq : s.signaled = flagAfter init s.log
  consumes : Consumes init s.log

def signals (log : List (Event T)) : ℕ := log.countP fun e => e matches .signaled _

def waits (log : List (Event T)) : ℕ := log.countP fun e => e matches .waited _

section

variable {init : Bool} {log : List (Event T)} {e : Event T}

lemma Consumes.tail (h : Consumes init (e :: log)) : Consumes init log :=
  fun t l hl => h t l (hl.trans (List.suffix_cons e log))

lemma Consumes.cons (h : Consumes init log)
    (he : ∀ t, e = .waited t → flagAfter init log = true) : Consumes init (e :: log) := by
  intro t l hl
  rcases List.suffix_cons_iff.mp hl with heq | hl
  · obtain ⟨rfl, rfl⟩ := List.cons.inj heq
    exact he t rfl
  · exact h t l hl

/-- A set flag was not set before the last successful wait. -/
lemma exists_signaled {u : T} {d : List (Event T)}
    (h : flagAfter init (d ++ .waited u :: log) = true) : ∃ v, .signaled v ∈ d := by
  induction d with
  | nil => simp [flagAfter] at h
  | cons e d ih =>
    cases e with
    | signaled v => exact ⟨v, List.mem_cons_self⟩
    | waited v => simp [flagAfter] at h
    | failed v =>
      obtain ⟨w, hw⟩ := ih h
      exact ⟨w, List.mem_cons_of_mem _ hw⟩

/-- A set that no wait has consumed is still there. -/
lemma Consumes.waits_add_le (h : Consumes init log) :
    waits log + (flagAfter init log).toNat ≤ signals log + init.toNat := by
  induction log with
  | nil => simp [waits, signals, flagAfter]
  | cons e log ih =>
    have hrest := ih h.tail
    cases e with
    | signaled t =>
      have hle := (flagAfter init log).toNat_le
      simp only [waits, signals, flagAfter, List.countP_cons, Bool.toNat_true] at hrest ⊢
      simp
      omega
    | waited t =>
      rw [h t log List.suffix_rfl] at hrest
      simp only [waits, signals, flagAfter, List.countP_cons, Bool.toNat_true] at hrest ⊢
      simp
      omega
    | failed t => simpa [waits, signals, flagAfter] using hrest

end

lemma Recorded.step {init : Bool} {t : T} {s s' : Shared T} {p p' : Place} {sig : Signal Unit}
    (h : Recorded init s) (he : Effect t s p s' p' sig) : Recorded init s' := by
  obtain ⟨hflag, hcons⟩ := h
  cases he with
  | signal hp => exact ⟨rfl, hcons.cons fun u hu => by cases hu⟩
  | consume hs => exact ⟨rfl, hcons.cons fun u _ => by rw [← hflag, hs]⟩
  | giveUp hs => exact ⟨hflag, hcons.cons fun u hu => by cases hu⟩
  | sleep timed hs => exact ⟨hflag, hcons⟩
  | notify hp => exact ⟨hflag, hcons⟩
  | wakeUp timed hp => exact ⟨hflag, hcons⟩

/-! ### The law -/

variable [Fintype T] [DecidableEq T] {init : Bool} {s s' : Config T (Shared T) Place}

/-- What the waits and the threads in them say about an event whose flag was `init` at first. -/
structure Law (init : Bool) (s : Config T (Shared T) Place) : Prop where
  flag_eq : s.shared.signaled = flagAfter init s.shared.log
  consumes : Consumes init s.shared.log
  /-- Between two successful waits there is a signal. -/
  between : ∀ t u d l, .waited t :: (d ++ .waited u :: l) <:+ s.shared.log →
    ∃ v, .signaled v ∈ d
  counted : waits s.shared.log ≤ signals s.shared.log + init.toNat
  /-- A `wait_for` that returns `false` leaves the flag as it is, and so do waits that go on. -/
  failed : ∀ a s', monitor.machine.step s a = some s' →
    (s'.shared.log = s.shared.log ∨ s'.shared.log = .failed a.tid :: s.shared.log) →
    s'.shared.signaled = s.shared.signaled
  sleeper : s.shared.signaled = true → (∃ t timed, s.pc t = .asleep timed) →
    (∃ u, s.pc u = .notifying) ∨ ∃ u timed, s.pc u = .woken timed true

lemma signaled_eq_of_failed {a : Act T Move} (hs : monitor.machine.step s a = some s')
    (hlog : s'.shared.log = s.shared.log ∨ s'.shared.log = .failed a.tid :: s.shared.log) :
    s'.shared.signaled = s.shared.signaled := by
  obtain ⟨sh, p, sig, hn, hd⟩ := Monitor.step_eq_some.mp hs
  rw [Monitor.shared_of_deliver hd] at hlog ⊢
  have heffect : Effect a.tid s.shared (s.pc a.tid) sh p sig := Effect.of_next hn
  cases heffect with
  | signal hp => simp at hlog
  | consume hs => simp [Shared.consume] at hlog
  | _ => rfl

lemma law_of_recorded (h : Recorded init s.shared) (hc : baton.Covered s) : Law init s := by
  refine ⟨h.flag_eq, h.consumes, fun t u d l hl => exists_signaled (h.consumes t _ hl), ?_,
    fun _ _ => signaled_eq_of_failed, fun hset hsleep => ?_⟩
  · exact (Nat.le_add_right _ _).trans h.consumes.waits_add_le
  · obtain ⟨t, timed, ht⟩ := hsleep
    have hcredit : 0 < tally Place.notified s.pc := by
      rcases hc ⟨t, by rw [ht]; rfl⟩ with ⟨_, hfalse⟩ | hle
      · exact hfalse.elim
      · simpa [baton, hset, Nat.succ_le_iff] using hle
    obtain ⟨u, hu⟩ := tally_pos_iff.mp hcredit
    cases hp : s.pc u with
    | notifying => exact .inl ⟨u, hp⟩
    | woken timed notified =>
      cases notified with
      | true => exact .inr ⟨u, timed, hp⟩
      | false => simp [hp, Place.notified] at hu
    | _ => simp [hp, Place.notified] at hu

/-- In every reachable state a set flag has somebody who will look at it. -/
lemma covered_of_reachable (h : monitor.machine.Reachable (start init) s) : baton.Covered s := by
  refine h.invariant (I := baton.Covered) ?_ fun u a u' hu _ hs => ?_
  · rintro ⟨t, ht⟩
    cases ht
  · exact hu.step (fun _ _ _ hn => (Effect.of_next hn).keeps) hs

/-- In every reachable state each successful wait has consumed one set of the flag, a `wait_for`
that returns `false` leaves it alone, and nobody sleeps at a set flag unless a notification is still
to be sent or another waiter has been notified and has not yet tested the predicate. -/
theorem event_law (h : monitor.machine.Reachable (start init) s) : Law init s := by
  have hinv : Recorded init s.shared ∧ baton.Covered s := by
    refine h.invariant (I := fun s => Recorded init s.shared ∧ baton.Covered s) ⟨?_, ?_⟩ ?_
    · exact ⟨rfl, fun t l hl => by simp [start] at hl⟩
    · rintro ⟨t, ht⟩
      cases ht
    · rintro u a u' ⟨hrec, hcovered⟩ - hs
      obtain ⟨sh, p, sig, hn, hd⟩ := Monitor.step_eq_some.mp hs
      refine ⟨?_, hcovered.step (fun _ _ _ hn => (Effect.of_next hn).keeps) hs⟩
      rw [Monitor.shared_of_deliver hd]
      exact hrec.step (Effect.of_next hn)
  exact law_of_recorded hinv.1 hinv.2

/-- One thread waits, another one signals and consumes its own signal before the waiter has the
mutex again, and signals once more; the `wait_for` of a third one has returned `false`. -/
theorem event_law_three : ∃ s : Config (Fin 3) (Shared (Fin 3)) Place,
    s.pc 0 = .woken false true ∧ s.pc 1 = .notifying ∧ s.shared.log.length = 4 ∧
      Law false s := by
  obtain ⟨s, hs, hp⟩ := Machine.exists_reachable_of_run (M := monitor.machine)
    (s := (start false : Config (Fin 3) (Shared (Fin 3)) Place))
    [⟨0, .wait, none⟩, ⟨2, .waitFor true, none⟩, ⟨1, .signal, none⟩, ⟨1, .notify, some 0⟩,
      ⟨1, .wait, none⟩, ⟨2, .wakeUp, none⟩, ⟨2, .recheck false, none⟩, ⟨1, .signal, none⟩]
    (fun s => s.pc 0 == .woken false true && s.pc 1 == .notifying && s.shared.log.length == 4)
    (by decide +kernel)
  simp only [Bool.and_eq_true, beq_iff_eq] at hp
  exact ⟨s, hp.1.1, hp.1.2, hp.2, event_law hs⟩

end AutoEvent

end Sync
