import Mathlib.Tactic.Common
import SyncLib.Core.Baton

/-!
# `manual_event`

`signal` sets the flag and notifies all waiters after it has released the mutex, and the flag stays
set until `reset`. A waiter tests the flag when it has the mutex again: one that was notified goes
back to sleep when `reset` was faster, and one that was not sleeps on only as long as the flag is
not set or the notification of a `signal` is still to come.
-/

namespace Sync

open Core

namespace ManualEvent

/-! ### The threads -/

/-- Where a thread is: outside, in `signal` between the release of the mutex and the notification,
in a wait on `cv_`, or on its way out of it, where it waits for the mutex. -/
inductive Place
  | idle
  | notifying
  | asleep (timed : Bool)
  | woken (timed : Bool)
  deriving DecidableEq, Repr

/-- A call, up to its end, to its wait or to its notification, or the next step of a thread in a
call: it wakes up, spuriously or because its time is over, and tests the predicate again. `inTime`
is whether there is time left to wait. -/
inductive Move
  | signal
  | reset
  | wait
  | waitFor (inTime : Bool)
  | waitUntil (inTime : Bool)
  | notify
  | wakeUp
  | recheck (inTime : Bool)
  deriving DecidableEq, Repr

/-- What a section under the mutex did: it set the flag or cleared it, or it was the end of a wait
that succeeded, or of a timed wait that returned `false`. -/
inductive Event (T : Type*)
  | signaled (t : T)
  | reset (t : T)
  | waited (t : T)
  | failed (t : T)
  deriving DecidableEq, Repr

/-- `signaled_`, and the sections so far, the last one first. -/
structure Shared (T : Type*) where
  signaled : Bool
  log : List (Event T)

variable {T : Type*}

def signal (t : T) (s : Shared T) : Shared T × Place :=
  (⟨true, .signaled t :: s.log⟩, .notifying)

def reset (t : T) (s : Shared T) : Shared T × Place := (⟨false, .reset t :: s.log⟩, .idle)

/-- The end of a wait. -/
def Shared.record (s : Shared T) (e : Event T) : Shared T := { s with log := e :: s.log }

/-- The test of the predicate in `wait`. -/
def wait (t : T) (s : Shared T) : Shared T × Place :=
  if s.signaled then (s.record (.waited t), .idle) else (s, .asleep false)

/-- The test of the predicate in `wait_for` and `wait_until`, before the wait or after it. -/
def timedWait (t : T) (inTime : Bool) (s : Shared T) : Shared T × Place :=
  if s.signaled then (s.record (.waited t), .idle)
  else if inTime then (s, .asleep true) else (s.record (.failed t), .idle)

/-- One section under the mutex, a notification, or the end of a wait. -/
def next (t : T) (s : Shared T) : Place → Move → Option (Shared T × Place × Signal Unit)
  | .idle, .signal           => silently (signal t s)
  | .idle, .reset            => silently (reset t s)
  | .idle, .wait             => silently (wait t s)
  | .idle, .waitFor b        => silently (timedWait t b s)
  | .idle, .waitUntil b      => silently (timedWait t b s)
  | .notifying, .notify      => some (s, .idle, .all ())
  | .asleep timed, .wakeUp   => some (s, .woken timed, .none)
  | .woken false, .recheck _ => silently (wait t s)
  | .woken true, .recheck b  => silently (timedWait t b s)
  | _, _                     => none

/-- The place of a thread on `cv_` after a notification. -/
def Place.wake : Place → Place
  | .asleep timed => .woken timed
  | p             => p

def Place.asleepOn : Place → Option Unit
  | .asleep _ => some ()
  | _         => none

/-- All threads around one event. -/
def monitor : Monitor T (Shared T) Place Unit Move where
  next := next
  asleepOn := Place.asleepOn
  wake := Place.wake

def start (signaled : Bool) : Config T (Shared T) Place := ⟨⟨signaled, []⟩, fun _ => .idle⟩

/-! ### The steps -/

/-- What a step of one thread does, one constructor for each effect. -/
inductive Effect (t : T) (s : Shared T) (p : Place) (m : Move) :
    Shared T → Place → Signal Unit → Prop
  | signal (hp : p = .idle) (hm : m = .signal) :
      Effect t s p m ⟨true, .signaled t :: s.log⟩ .notifying .none
  | reset (hp : p = .idle) (hm : m = .reset) :
      Effect t s p m ⟨false, .reset t :: s.log⟩ .idle .none
  | pass (hp : p ≠ .notifying) (hs : s.signaled = true) :
      Effect t s p m (s.record (.waited t)) .idle .none
  | giveUp (hp : p ≠ .notifying) (hs : s.signaled = false) :
      Effect t s p m (s.record (.failed t)) .idle .none
  | sleep (timed : Bool) (hp : p ≠ .notifying) (hs : s.signaled = false) :
      Effect t s p m s (.asleep timed) .none
  | notify (hp : p = .notifying) : Effect t s p m s .idle (.all ())
  | wakeUp (timed : Bool) (hp : p = .asleep timed) : Effect t s p m s (.woken timed) .none

namespace Effect

variable {t : T} {s s' : Shared T} {p p' : Place} {m : Move} {sig : Signal Unit}

lemma of_wait (hp : p ≠ .notifying) : Effect t s p m (wait t s).1 (wait t s).2 .none := by
  unfold wait
  split_ifs with hs
  · exact .pass hp hs
  · exact .sleep false hp (by simpa using hs)

lemma of_timedWait (hp : p ≠ .notifying) (b : Bool) :
    Effect t s p m (timedWait t b s).1 (timedWait t b s).2 .none := by
  unfold timedWait
  split_ifs with hs hb
  · exact .pass hp hs
  · exact .sleep true hp (by simpa using hs)
  · exact .giveUp hp (by simpa using hs)

lemma of_next (h : next t s p m = some (s', p', sig)) : Effect t s p m s' p' sig := by
  cases p with
  | idle =>
    cases m with
    | signal =>
      cases h
      exact .signal rfl rfl
    | reset =>
      cases h
      exact .reset rfl rfl
    | wait =>
      cases h
      exact of_wait (by simp)
    | waitFor b | waitUntil b =>
      cases h
      exact of_timedWait (by simp) b
    | _ => cases h
  | notifying =>
    cases m <;> cases h
    exact .notify rfl
  | asleep timed =>
    cases m <;> cases h
    exact .wakeUp timed rfl
  | woken timed =>
    cases timed with
    | false =>
      cases m <;> cases h
      exact of_wait (by simp)
    | true =>
      cases m <;> cases h
      exact of_timedWait (by simp) _

end Effect

/-! ### The baton -/

/-- A set flag is there for all sleepers, and a `signal` that has still to notify tells all of
them. -/
def baton : (monitor (T := T)).Baton () where
  avail s := s.signaled.toNat
  credit _ := 0
  announces p := p = .notifying
  gain := 0
  asleepOn_wake p := by cases p <;> rfl
  credit_le_wake _ := le_rfl
  gain_le_wake _ _ := le_rfl
  announces_wake p hp := by
    subst hp
    rfl

lemma Effect.keeps {t : T} {s s' : Shared T} {p p' : Place} {m : Move}
    {sig : Signal Unit} (h : Effect t s p m s' p' sig) : baton.Keeps s p s' p' sig := by
  refine ⟨fun hp' => ?_, fun ha => ?_, ?_⟩
  · cases h with
    | sleep timed hp hs => simp [baton, hs]
    | _ => cases hp'
  · cases h with
    | signal hp | reset hp | wakeUp _ hp =>
      subst hp
      cases ha
    | pass hp | giveUp hp | sleep _ hp => exact absurd ha hp
    | notify => exact .inr rfl
  · cases h with
    | signal => exact .inr (.inl rfl)
    | notify => exact .inl rfl
    | reset => exact .inr (.inr (.inl rfl))
    | pass | giveUp | sleep | wakeUp => exact .inr (.inr (.inr le_rfl))

/-! ### What the sections leave -/

/-- The flag after these sections: set by a signal, and cleared by a reset. -/
def flagAfter (init : Bool) : List (Event T) → Bool
  | []               => init
  | .signaled _ :: _ => true
  | .reset _ :: _    => false
  | .waited _ :: l   => flagAfter init l
  | .failed _ :: l   => flagAfter init l

/-- The answer of a wait is the flag as it was at its end. -/
def Answers (init : Bool) (log : List (Event T)) : Prop :=
  ∀ t l, (.waited t :: l <:+ log → flagAfter init l = true) ∧
    (.failed t :: l <:+ log → flagAfter init l = false)

/-- `signaled_` is what the sections leave, and what the waits have answered. -/
structure Recorded (init : Bool) (s : Shared T) : Prop where
  flag_eq : s.signaled = flagAfter init s.log
  answers : Answers init s.log

lemma Answers.cons {init : Bool} {log : List (Event T)} {e : Event T} (h : Answers init log)
    (hwaited : ∀ t, e = .waited t → flagAfter init log = true)
    (hfailed : ∀ t, e = .failed t → flagAfter init log = false) : Answers init (e :: log) := by
  refine fun t l => ⟨fun hl => ?_, fun hl => ?_⟩
  · rcases List.suffix_cons_iff.mp hl with heq | hl
    · obtain ⟨rfl, rfl⟩ := List.cons.inj heq
      exact hwaited t rfl
    · exact (h t l).1 hl
  · rcases List.suffix_cons_iff.mp hl with heq | hl
    · obtain ⟨rfl, rfl⟩ := List.cons.inj heq
      exact hfailed t rfl
    · exact (h t l).2 hl

lemma Recorded.step {init : Bool} {t : T} {s s' : Shared T} {p p' : Place} {m : Move}
    {sig : Signal Unit} (h : Recorded init s) (he : Effect t s p m s' p' sig) :
    Recorded init s' := by
  obtain ⟨hflag, hanswers⟩ := h
  cases he with
  | signal | reset =>
    exact ⟨rfl, hanswers.cons (fun u hu => by cases hu) fun u hu => by cases hu⟩
  | pass _ hs =>
    refine ⟨hflag, hanswers.cons (fun u _ => ?_) fun u hu => by cases hu⟩
    rw [← hflag, hs]
  | giveUp _ hs =>
    refine ⟨hflag, hanswers.cons (fun u hu => by cases hu) fun u _ => ?_⟩
    rw [← hflag, hs]
  | sleep | notify | wakeUp => exact ⟨hflag, hanswers⟩

/-! ### The way out -/

variable [Fintype T] [DecidableEq T] {init : Bool} {s s' : Config T (Shared T) Place}

/-- No call begins, and nobody wakes up without a notification. -/
def GoesOn (_ : Config T (Shared T) Place) (a : Act T Move) : Prop :=
  match a.move with
  | .notify | .recheck _ => True
  | _                    => False

/-- What a thread has still to do when the flag is set. -/
def Place.toDo : Place → ℕ
  | .idle      => 0
  | .notifying => 1
  | .woken _   => 1
  | .asleep _  => 2

lemma Place.toDo_wake_le (p : Place) : p.wake.toDo ≤ p.toDo := by
  cases p <;> simp [wake, toDo]

lemma toDo_update_lt {t : T} {pc : T → Place} (ht : pc t ≠ .idle) :
    tally Place.toDo (Function.update pc t .idle) < tally Place.toDo pc := by
  have hupdate := tally_update Place.toDo pc t .idle
  have hpos : 0 < (pc t).toDo := by
    cases hp : pc t with
    | idle => exact absurd hp ht
    | _ => simp [Place.toDo]
  simp only [show Place.toDo .idle = 0 from rfl] at hupdate
  omega

/-- At a set flag a thread that is not asleep finishes. -/
lemma exists_step_of_set {t : T} (hset : s.shared.signaled = true) (ht : s.pc t ≠ .idle)
    (hawake : ∀ timed, s.pc t ≠ .asleep timed) :
    ∃ a s', GoesOn s a ∧ monitor.machine.step s a = some s' ∧ s'.shared.signaled = true ∧
      tally Place.toDo s'.pc < tally Place.toDo s.pc := by
  have hless := toDo_update_lt ht
  cases hp : s.pc t with
  | idle => exact absurd hp ht
  | asleep timed => exact absurd hp (hawake timed)
  | notifying =>
    refine ⟨⟨t, .notify, none⟩, _, trivial, Monitor.step_eq_some.mpr ⟨s.shared, .idle, .all (), ?_,
      Monitor.deliver_all.mpr ⟨rfl, rfl⟩⟩, hset, lt_of_le_of_lt (tally_le_tally fun u => ?_) hless⟩
    · simp only [monitor, hp, next]
    · simp only [Monitor.notify]
      split_ifs
      · exact Place.toDo_wake_le _
      · exact le_rfl
  | woken timed =>
    refine ⟨⟨t, .recheck true, none⟩, ⟨s.shared.record (.waited t), _⟩, trivial,
      Monitor.step_eq_some.mpr ⟨_, .idle, .none, ?_, Monitor.deliver_none.mpr ⟨rfl, rfl⟩⟩, hset,
      hless⟩
    cases timed <;> simp [monitor, hp, next, silently, wait, timedWait, hset]

/-- A flag that is set, and nobody sleeps who will not be told. -/
def Open (s : Config T (Shared T) Place) : Prop := s.shared.signaled = true ∧ baton.Covered s

lemma Open.progress (h : Open s) : (∀ t, s.pc t = .idle) ∨
    ∃ a s', GoesOn s a ∧ monitor.machine.step s a = some s' ∧ Open s' ∧
      tally Place.toDo s'.pc < tally Place.toDo s.pc := by
  obtain ⟨hset, hcovered⟩ := h
  by_cases hidle : ∀ t, s.pc t = .idle
  · exact .inl hidle
  · right
    obtain ⟨t, ht⟩ := not_forall.mp hidle
    -- somebody is not asleep, or there would be nobody to notify the sleepers
    obtain ⟨u, hu, hawake⟩ : ∃ u, s.pc u ≠ .idle ∧ ∀ timed, s.pc u ≠ .asleep timed := by
      by_cases hasleep : ∃ timed, s.pc t = .asleep timed
      · obtain ⟨timed, hasleep⟩ := hasleep
        rcases hcovered ⟨t, by rw [hasleep]; rfl⟩ with ⟨u, hu⟩ | hle
        · refine ⟨u, ?_, ?_⟩ <;> simp [show s.pc u = .notifying from hu]
        · simp [baton, hset, tally] at hle
      · exact ⟨t, ht, fun timed h => hasleep ⟨timed, h⟩⟩
    obtain ⟨a, s', hgo, hs, hset', hlt⟩ := exists_step_of_set hset hu hawake
    exact ⟨a, s', hgo, hs,
      ⟨hset', hcovered.step (fun _ _ _ hn => (Effect.of_next hn).keeps) hs⟩, hlt⟩

/-- At a set flag everybody who is in a call can finish it, without a call of another thread. -/
lemma Open.exists_runs (h : Open s) :
    ∃ s', monitor.machine.Runs GoesOn s s' ∧ s'.shared.signaled = true ∧ ∀ t, s'.pc t = .idle := by
  obtain ⟨s', hruns, hopen, hidle⟩ :=
    Machine.exists_runs_of_progress (fun u => tally Place.toDo u.pc) (fun _ => Open.progress) h
  exact ⟨s', hruns, hopen.1, hidle⟩

/-! ### The law -/

/-- What the flag and the answers of the waits are, for an event whose flag was `init` at first. -/
structure Law (init : Bool) (s : Config T (Shared T) Place) : Prop where
  flag_eq : s.shared.signaled = flagAfter init s.shared.log
  answers : Answers init s.shared.log
  /-- A wait that goes on or ends, with either answer, leaves the flag as it is. -/
  kept : ∀ a s', monitor.machine.step s a = some s' → a.move ≠ .signal → a.move ≠ .reset →
    s'.shared.signaled = s.shared.signaled
  sleeper : s.shared.signaled = true → (∃ t timed, s.pc t = .asleep timed) →
    ∃ u, s.pc u = .notifying
  /-- Whoever is in a call can finish it as long as nobody resets the event. -/
  open_of_set : s.shared.signaled = true →
    ∃ s', monitor.machine.Runs GoesOn s s' ∧ s'.shared.signaled = true ∧ ∀ t, s'.pc t = .idle

lemma signaled_of_step {a : Act T Move} (hs : monitor.machine.step s a = some s')
    (hsignal : a.move ≠ .signal) (hreset : a.move ≠ .reset) :
    s'.shared.signaled = s.shared.signaled := by
  obtain ⟨sh, p, sig, hn, hd⟩ := Monitor.step_eq_some.mp hs
  rw [Monitor.shared_of_deliver hd]
  have heffect : Effect a.tid s.shared (s.pc a.tid) a.move sh p sig := Effect.of_next hn
  cases heffect with
  | signal _ hm => exact absurd hm hsignal
  | reset _ hm => exact absurd hm hreset
  | _ => rfl

lemma law_of_recorded (h : Recorded init s.shared) (hc : baton.Covered s) : Law init s := by
  refine ⟨h.flag_eq, h.answers, fun _ _ => signaled_of_step, fun hset hsleep => ?_,
    fun hset => Open.exists_runs ⟨hset, hc⟩⟩
  obtain ⟨t, timed, ht⟩ := hsleep
  rcases hc ⟨t, by rw [ht]; rfl⟩ with hnotifying | hle
  · exact hnotifying
  · simp [baton, hset, tally] at hle

/-- In every reachable state the flag is what the last signal or reset left, every wait has answered
as the flag was, and a flag that is set lets everybody through: who sleeps at it will be told. -/
theorem manual_event_law (h : monitor.machine.Reachable (start init) s) : Law init s := by
  have hinv : Recorded init s.shared ∧ baton.Covered s := by
    refine h.invariant (I := fun s => Recorded init s.shared ∧ baton.Covered s) ⟨?_, ?_⟩ ?_
    · exact ⟨rfl, fun t l => ⟨fun hl => by simp [start] at hl, fun hl => by simp [start] at hl⟩⟩
    · rintro ⟨t, ht⟩
      cases ht
    · rintro u a u' ⟨hrec, hcovered⟩ - hs
      obtain ⟨sh, p, sig, hn, hd⟩ := Monitor.step_eq_some.mp hs
      refine ⟨?_, hcovered.step (fun _ _ _ hn => (Effect.of_next hn).keeps) hs⟩
      rw [Monitor.shared_of_deliver hd]
      exact hrec.step (Effect.of_next hn)
  exact law_of_recorded hinv.1 hinv.2

/-- A thread was notified and sleeps again, since another one has reset the event before it could
test the flag. The other one has signaled once more, and has still to notify. -/
theorem manual_event_law_two : ∃ s : Config (Fin 2) (Shared (Fin 2)) Place,
    s.pc 0 = .asleep false ∧ s.pc 1 = .notifying ∧ s.shared.log.length = 3 ∧ Law false s := by
  obtain ⟨s, hs, hp⟩ := Machine.exists_reachable_of_run (M := monitor.machine)
    (s := (start false : Config (Fin 2) (Shared (Fin 2)) Place))
    [⟨0, .wait, none⟩, ⟨1, .signal, none⟩, ⟨1, .notify, none⟩, ⟨1, .reset, none⟩,
      ⟨0, .recheck true, none⟩, ⟨1, .signal, none⟩]
    (fun s => s.pc 0 == .asleep false && s.pc 1 == .notifying && s.shared.log.length == 3)
    (by decide +kernel)
  simp only [Bool.and_eq_true, beq_iff_eq, and_assoc] at hp
  exact ⟨s, hp.1, hp.2.1, hp.2.2, manual_event_law hs⟩

end ManualEvent

end Sync
