import SyncLib.TimedMutex.Basic

/-!
# `timed_mutex`

`unlock` notifies one waiter. That waiter may be one whose time is just over, and any thread may
take the mutex before it: but whoever has been notified looks at `locked_` once more before it gives
up, so the notification is only used up by a thread that finds the mutex locked, or locks it.
-/

namespace Sync

open Core TimedMutexes

namespace TimedMutex

/-! ### The threads -/

/-- Where a thread is: outside, in `cv_.wait` or `cv_.wait_until`, or on its way out of it, where
it waits for `mtx_`. -/
inductive Place
  | idle
  | asleep (timed : Bool)
  | woken (timed notified : Bool)
  deriving DecidableEq, Repr

/-- A call, up to its end or to its wait, or the next step of a thread in its wait: it wakes up,
spuriously or because its time is over, and looks at `locked_` again. `free` is whether `mtx_` was
free, `inTime` the comparison of the clock, and `noTimeout` what `wait_until` returned. -/
inductive Move
  | lock
  | tryLock (free : Bool)
  | tryLockUntil (inTime : Bool)
  | unlock
  | wakeUp
  | recheck (noTimeout : Bool)
  deriving DecidableEq, Repr

/-- `locked_`, and how the calls so far have ended, the last one first. -/
structure Shared (T : Type*) where
  locked : Bool
  log : List (Event T)

variable {T : Type*}

def Shared.acquire (s : Shared T) (t : T) : Shared T :=
  { locked := true, log := .acquired t :: s.log }

/-- An attempt returns `false`. -/
def Shared.refuse (s : Shared T) (t : T) : Shared T := { s with log := .failed t :: s.log }

/-- The loop of `lock`. -/
def lock (t : T) (s : Shared T) : Shared T × Place :=
  if s.locked then (s, .asleep false) else (s.acquire t, .idle)

def tryLock (t : T) (free : Bool) (s : Shared T) : Shared T × Place :=
  if free && !s.locked then (s.acquire t, .idle) else (s.refuse t, .idle)

/-- The loop of `try_lock_until`, and what follows it. -/
def tryLockUntil (t : T) (noTimeout : Bool) (s : Shared T) : Shared T × Place :=
  if noTimeout && s.locked then (s, .asleep true)
  else if !s.locked then (s.acquire t, .idle) else (s.refuse t, .idle)

def unlock (t : T) (s : Shared T) : Shared T :=
  { locked := false, log := .released t :: s.log }

/-- One section under `mtx_`, or the end of a wait. `try_lock_for` is `try_lock_until` for the time
it computes. -/
def next (t : T) (s : Shared T) : Place → Move → Option (Shared T × Place × Signal Unit)
  | .idle, .lock              => silently (lock t s)
  | .idle, .tryLock free      => silently (tryLock t free s)
  | .idle, .tryLockUntil b    => silently (tryLockUntil t b s)
  | .idle, .unlock            => some (unlock t s, .idle, .one ())
  | .asleep timed, .wakeUp    => some (s, .woken timed false, .none)
  | .woken false _, .recheck _ => silently (lock t s)
  | .woken true _, .recheck b => silently (tryLockUntil t b s)
  | _, _                      => none

/-- The place of a thread on `cv_` after a notification. -/
def Place.wake : Place → Place
  | .asleep timed => .woken timed true
  | p             => p

def Place.asleepOn : Place → Option Unit
  | .asleep _ => some ()
  | _         => none

/-- All threads around one mutex. -/
def monitor : Monitor T (Shared T) Place Unit Move where
  next := next
  asleepOn := Place.asleepOn
  wake := Place.wake

def start : Config T (Shared T) Place := ⟨⟨false, []⟩, fun _ => .idle⟩

/-! ### The steps -/

/-- What a step of one thread does, one constructor for each effect. -/
inductive Effect (t : T) (s : Shared T) (p : Place) (m : Move) :
    Shared T → Place → Signal Unit → Prop
  | acquire (hl : s.locked = false) : Effect t s p m (s.acquire t) .idle .none
  | refuse (h : p = .idle ∨ s.locked = true) : Effect t s p m (s.refuse t) .idle .none
  | sleep (timed : Bool) (hl : s.locked = true) : Effect t s p m s (.asleep timed) .none
  | unlock (hp : p = .idle) (hm : m = .unlock) : Effect t s p m (unlock t s) .idle (.one ())
  | wakeUp (timed : Bool) (hp : p = .asleep timed) :
      Effect t s p m s (.woken timed false) .none

namespace Effect

variable {t : T} {s s' : Shared T} {p p' : Place} {m : Move} {sig : Signal Unit}

lemma of_lock : Effect t s p m (lock t s).1 (lock t s).2 .none := by
  unfold TimedMutex.lock
  split_ifs with hl
  · exact .sleep false hl
  · exact .acquire (by simpa using hl)

lemma of_tryLock (free : Bool) :
    Effect t s .idle m (tryLock t free s).1 (tryLock t free s).2 .none := by
  unfold tryLock
  split_ifs with hl
  · exact .acquire (by simp_all)
  · exact .refuse (.inl rfl)

lemma of_tryLockUntil (b : Bool) :
    Effect t s p m (tryLockUntil t b s).1 (tryLockUntil t b s).2 .none := by
  unfold tryLockUntil
  split_ifs with hb hl
  · exact .sleep true (by simp_all)
  · exact .acquire (by simp_all)
  · exact .refuse (.inr (by simpa using hl))

lemma of_next (h : next t s p m = some (s', p', sig)) : Effect t s p m s' p' sig := by
  unfold next silently at h
  split at h <;> simp only [Option.some.injEq, Prod.mk.injEq, reduceCtorEq] at h <;>
    obtain ⟨rfl, rfl, rfl⟩ := h
  · exact of_lock
  · exact of_tryLock _
  · exact of_tryLockUntil _
  · exact .unlock rfl rfl
  · exact .wakeUp _ rfl
  · exact of_lock
  · exact of_tryLockUntil _

end Effect

/-! ### The baton -/

/-- Waiters that were notified and have not looked at `locked_` yet. -/
def Place.notified : Place → ℕ
  | .woken _ true => 1
  | _             => 0

/-- An unlocked mutex can be taken by one thread, and a notified waiter will look at it. -/
def baton : (monitor (T := T)).Baton () where
  avail s := (!s.locked).toNat
  credit := Place.notified
  announces _ := False
  gain := 1
  asleepOn_wake p := by cases p <;> rfl
  credit_le_wake p := by cases p <;> simp [monitor, Place.wake, Place.notified]
  gain_le_wake p hp := by
    cases p <;> simp_all [monitor, Place.asleepOn, Place.wake, Place.notified]
  announces_wake _ := id

lemma Effect.keeps {t : T} {s s' : Shared T} {p p' : Place} {m : Move} {sig : Signal Unit}
    (h : Effect t s p m s' p' sig) : baton.Keeps s p s' p' sig := by
  refine ⟨fun hp => ?_, False.elim, .inr (.inr ?_)⟩
  · cases h with
    | sleep timed hl => simp [baton, hl]
    | _ => cases hp
  · cases h with
    | acquire hl => exact .inl rfl
    | refuse h =>
      rcases h with rfl | hl
      · exact .inr le_rfl
      · left
        simp [baton, Shared.refuse, hl]
    | sleep timed hl => exact .inl (by simp [baton, hl])
    | unlock hp hm =>
      subst hp
      right
      simp [baton, TimedMutex.unlock, Place.notified, Monitor.Baton.sent]
    | wakeUp timed hp =>
      subst hp
      exact .inr le_rfl

/-! ### The law -/

variable [DecidableEq T]

/-- `unlock` is called by a thread that holds the mutex. -/
def UnlocksOwn (s : Config T (Shared T) Place) (a : Act T Move) : Prop :=
  a.move = .unlock → Holds a.tid s.shared.log

instance (s : Config T (Shared T) Place) (a : Act T Move) : Decidable (UnlocksOwn s a) :=
  inferInstanceAs (Decidable (_ → _))

/-- `locked_` is true when there is an owner, who holds the mutex once. -/
def Owned (s : Shared T) : Prop := ∃ owner, Accounts s.log owner 1 ∧ s.locked = owner.isSome

lemma Owned.step {t : T} {s s' : Shared T} {p p' : Place} {m : Move} {sig : Signal Unit}
    (h : Owned s) (he : Effect t s p m s' p' sig) (hu : m = .unlock → Holds t s.log) :
    Owned s' := by
  obtain ⟨owner, hacc, hlocked⟩ := h
  cases he with
  | acquire hl =>
    rw [hl] at hlocked
    obtain rfl : owner = none := by simpa using hlocked.symm
    exact ⟨some t, hacc.acquire t, rfl⟩
  | refuse h => exact ⟨owner, hacc.failed t, hlocked⟩
  | sleep timed hl => exact ⟨owner, hacc, hlocked⟩
  | unlock hp hm =>
    obtain ⟨rfl, -⟩ := hacc.eq_of_holds (hu hm)
    exact ⟨none, hacc.release.clear, rfl⟩
  | wakeUp timed hp => exact ⟨owner, hacc, hlocked⟩

variable [Fintype T] {s s' : Config T (Shared T) Place}

/-- What the calls and the threads in their waits say about `locked_`. -/
structure Law (s : Config T (Shared T) Place) : Prop where
  locked_iff : s.shared.locked = true ↔ ∃! t, Holds t s.shared.log
  unlocked : s.shared.locked = false → ∀ t, ¬ Holds t s.shared.log
  /-- Attempts that return `false` leave `locked_` as it is, and so do waits that go on. -/
  failed : ∀ a s', monitor.machine.step s a = some s' →
    (s'.shared.log = s.shared.log ∨ s'.shared.log = .failed a.tid :: s.shared.log) →
    s'.shared.locked = s.shared.locked
  sleeper : s.shared.locked = false → (∃ t timed, s.pc t = .asleep timed) →
    ∃ u timed, s.pc u = .woken timed true

lemma locked_eq_of_failed {a : Act T Move} (hs : monitor.machine.step s a = some s')
    (hlog : s'.shared.log = s.shared.log ∨ s'.shared.log = .failed a.tid :: s.shared.log) :
    s'.shared.locked = s.shared.locked := by
  obtain ⟨sh, p, sig, hn, hd⟩ := Monitor.step_eq_some.mp hs
  rw [Monitor.shared_of_deliver hd] at hlog ⊢
  have heffect : Effect a.tid s.shared (s.pc a.tid) a.move sh p sig := Effect.of_next hn
  cases heffect with
  | acquire hl => simp [Shared.acquire] at hlog
  | refuse h => rfl
  | sleep timed hl => rfl
  | unlock hp hm => simp [unlock] at hlog
  | wakeUp timed hp => rfl

lemma law_of_owned (h : Owned s.shared) (hc : baton.Covered s) : Law s := by
  obtain ⟨owner, hacc, hlocked⟩ := h
  have hunlocked : s.shared.locked = false → ∀ t, ¬ Holds t s.shared.log := by
    intro hl t ht
    rw [hlocked, (hacc.eq_of_holds ht).1] at hl
    cases hl
  refine ⟨⟨fun hl => ?_, ?_⟩, hunlocked, fun _ _ => locked_eq_of_failed, fun hl hsleep => ?_⟩
  · obtain ⟨t, rfl⟩ := Option.isSome_iff_exists.mp (hlocked.symm.trans hl)
    refine ⟨t, (hacc.holds_iff Nat.one_pos).mpr rfl, fun u hu => ?_⟩
    exact (Option.some.inj ((hacc.holds_iff Nat.one_pos).mp hu)).symm
  · rintro ⟨t, ht, -⟩
    by_contra hl
    exact hunlocked (by simpa using hl) t ht
  · obtain ⟨t, timed, ht⟩ := hsleep
    have hcredit : 0 < tally Place.notified s.pc := by
      rcases hc ⟨t, by rw [ht]; rfl⟩ with ⟨_, hfalse⟩ | hle
      · exact hfalse.elim
      · simpa [baton, hl, Nat.succ_le_iff] using hle
    obtain ⟨u, hu⟩ := tally_pos_iff.mp hcredit
    refine ⟨u, ?_⟩
    cases hp : s.pc u with
    | woken timed notified =>
      cases notified with
      | true => exact ⟨timed, rfl⟩
      | false => simp [hp, Place.notified] at hu
    | _ => simp [hp, Place.notified] at hu

/-- In every run in which only holders unlock, `locked_` says whether somebody holds the mutex, an
attempt that returns `false` leaves it alone, and nobody sleeps at an unlocked mutex unless
another waiter has been notified and has not yet looked at `locked_`. -/
theorem locked_law_of_runs (h : monitor.machine.Runs UnlocksOwn start s) : Law s := by
  have hinv : Owned s.shared ∧ baton.Covered s := by
    refine h.invariant (I := fun s => Owned s.shared ∧ baton.Covered s) ⟨?_, ?_⟩ ?_
    · exact ⟨none, Accounts.nil, rfl⟩
    · rintro ⟨t, ht⟩
      cases ht
    · rintro u a u' ⟨howned, hcovered⟩ hok hs
      obtain ⟨sh, p, sig, hn, hd⟩ := Monitor.step_eq_some.mp hs
      refine ⟨?_, hcovered.step (fun _ _ _ hn => (Effect.of_next hn).keeps) hs⟩
      rw [Monitor.shared_of_deliver hd]
      exact howned.step (Effect.of_next hn) hok
  exact law_of_owned hinv.1 hinv.2

/-- Two threads wait for the first one, the second one with a time. It is notified, but the first
one locks again before it. -/
theorem locked_law_of_runs_three : ∃ s : Config (Fin 3) (Shared (Fin 3)) Place,
    s.pc 1 = .woken true true ∧ s.pc 2 = .asleep false ∧ s.shared.locked = true ∧ Law s := by
  have hrun : (monitor.machine.runWhile UnlocksOwn start
      [⟨(0 : Fin 3), .lock, none⟩, ⟨1, .tryLockUntil true, none⟩, ⟨2, .lock, none⟩,
        ⟨0, .unlock, some 1⟩, ⟨0, .tryLock true, none⟩]).any
      (fun s => s.pc 1 == .woken true true && s.pc 2 == .asleep false && s.shared.locked)
      = true := by
    decide +kernel
  obtain ⟨s, hs, hp⟩ := Machine.exists_runs_of_runWhile _ _ hrun
  simp only [Bool.and_eq_true, beq_iff_eq] at hp
  obtain ⟨⟨h₁, h₂⟩, hlocked⟩ := hp
  exact ⟨s, h₁, h₂, hlocked, locked_law_of_runs hs⟩

end TimedMutex

end Sync
