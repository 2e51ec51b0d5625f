import SyncLib.Core.Bits
import SyncLib.TimedMutex.Basic

/-!
# `recursive_timed_mutex`

The owner's id stands for the mutex, and `count_` for how many times over it is held. `unlock`
notifies after it has released `mtx_`, so between the two the mutex is free and nobody has been
notified yet: the notification is then still to be sent.
-/

namespace Sync

open Core TimedMutexes

namespace RecursiveTimedMutex

/-! ### The threads -/

/-- Where a thread is: outside, in a wait, on its way out of it, where it waits for `mtx_`, or in
`unlock` between the release of `mtx_` and the notification. -/
inductive Place
  | idle
  | asleep (timed : Bool)
  | woken (timed notified : Bool)
  | notifying
  deriving DecidableEq, Repr

/-- A call, up to its end, to its wait or to its notification, or the next step of a thread in a
call. `free` is whether `mtx_` was free, `inTime` the comparison of the clock, and `noTimeout` what
`wait_until` returned. -/
inductive Move
  | lock
  | tryLock (free : Bool)
  | tryLockUntil (inTime : Bool)
  | unlock
  | notify
  | wakeUp
  | recheck (noTimeout : Bool)
  deriving DecidableEq, Repr

/-- `count_` and `id_`, and how the calls so far have ended, the last one first. -/
structure Shared (T : Type*) where
  count : UInt64
  id : Option T
  log : List (Event T)

/-- `std::numeric_limits<std::size_t>::max()`. -/
def countMax : UInt64 := 0xFFFFFFFFFFFFFFFF

variable {T : Type*}

/-- `count_ = 1; id_ = id;` -/
def Shared.acquire (s : Shared T) (t : T) : Shared T :=
  { count := 1, id := some t, log := .acquired t :: s.log }

/-- `++count_;` -/
def Shared.again (s : Shared T) (t : T) : Shared T :=
  { s with count := s.count + 1, log := .acquired t :: s.log }

/-- An attempt returns `false`. -/
def Shared.refuse (s : Shared T) (t : T) : Shared T := { s with log := .failed t :: s.log }

/-- The loop of `lock`. -/
def lockLoop (t : T) (s : Shared T) : Shared T × Place :=
  if s.count ≠ 0 then (s, .asleep false) else (s.acquire t, .idle)

/-- The loop of `try_lock_until`, and what follows it. -/
def tryLockLoop (t : T) (noTimeout : Bool) (s : Shared T) : Shared T × Place :=
  if noTimeout ∧ s.count ≠ 0 then (s, .asleep true)
  else if s.count = 0 then (s.acquire t, .idle) else (s.refuse t, .idle)

/-- `unlock`, up to the release of `mtx_`. -/
def unlock (t : T) (s : Shared T) : Shared T × Place :=
  let s := { s with count := s.count - 1, log := .released t :: s.log }
  if s.count = 0 then ({ s with id := none }, .notifying) else (s, .idle)

section

variable [DecidableEq T]

/-- The assertion on `count_` is left out: where it fails the count wraps around. -/
def lock (t : T) (s : Shared T) : Shared T × Place :=
  if s.id = some t then (s.again t, .idle) else lockLoop t s

def tryLock (t : T) (free : Bool) (s : Shared T) : Shared T × Place :=
  if free ∧ (s.count = 0 ∨ s.id = some t) then
    if s.count = countMax then (s.refuse t, .idle)
    else ({ s.again t with id := some t }, .idle)
  else (s.refuse t, .idle)

def tryLockUntil (t : T) (inTime : Bool) (s : Shared T) : Shared T × Place :=
  if s.id = some t then
    if s.count = countMax then (s.refuse t, .idle) else (s.again t, .idle)
  else tryLockLoop t inTime s

/-- One section under `mtx_`, the notification of `unlock`, or the end of a wait. `try_lock_for` is
`try_lock_until` for the time it computes. -/
def next (t : T) (s : Shared T) : Place → Move → Option (Shared T × Place × Signal Unit)
  | .idle, .lock               => silently (lock t s)
  | .idle, .tryLock free       => silently (tryLock t free s)
  | .idle, .tryLockUntil b     => silently (tryLockUntil t b s)
  | .idle, .unlock             => silently (unlock t s)
  | .notifying, .notify        => some (s, .idle, .one ())
  | .asleep timed, .wakeUp     => some (s, .woken timed false, .none)
  | .woken false _, .recheck _ => silently (lockLoop t s)
  | .woken true _, .recheck b  => silently (tryLockLoop t b s)
  | _, _                       => none

/-- The place of a thread on `cv_` after a notification. -/
def Place.wake : Place → Place
  | .asleep timed => .woken timed true
  | p             => p

def Place.asleepOn : Place → Option Unit
  | .asleep _ => some ()
  | _         => none

/-- All threads around one mutex. -/
def monitor : Monitor T (Shared T) Place Unit Move where
  next := next
  asleepOn := Place.asleepOn
  wake := Place.wake

def start : Config T (Shared T) Place := ⟨⟨0, none, []⟩, fun _ => .idle⟩

end

/-! ### The steps -/

lemma toNat_add_one {c : UInt64} (h : c ≠ countMax) : (c + 1).toNat = c.toNat + 1 := by
  have hne : c.toNat ≠ 2 ^ 64 - 1 := fun hc => h (UInt64.toNat_inj.mp hc)
  have hlt := c.toNat_lt
  apply toNat_add_of_lt
  rw [UInt64.toNat_one]
  omega

lemma add_one_ne_zero {c : UInt64} (h : c ≠ countMax) : c + 1 ≠ 0 := by
  intro h0
  have hadd := toNat_add_one h
  rw [h0, UInt64.toNat_zero] at hadd
  omega

/-- What a step of one thread does, one constructor for each effect. -/
inductive Effect (t : T) (s : Shared T) (p : Place) (m : Move) :
    Shared T → Place → Signal Unit → Prop
  | acquire (hc : s.count = 0) : Effect t s p m (s.acquire t) .idle .none
  | again (hid : s.id = some t) (hmax : m ≠ .lock → s.count ≠ countMax) :
      Effect t s p m (s.again t) .idle .none
  | refuse (h : p = .idle ∨ s.count ≠ 0) : Effect t s p m (s.refuse t) .idle .none
  | sleep (timed : Bool) (hc : s.count ≠ 0) : Effect t s p m s (.asleep timed) .none
  | unlock (hp : p = .idle) (hm : m = .unlock) (hc : s.count - 1 ≠ 0) :
      Effect t s p m { s with count := s.count - 1, log := .released t :: s.log } .idle .none
  | free (hp : p = .idle) (hm : m = .unlock) (hc : s.count - 1 = 0) :
      Effect t s p m ⟨0, none, .released t :: s.log⟩ .notifying .none
  | notify (hp : p = .notifying) : Effect t s p m s .idle (.one ())
  | wakeUp (timed : Bool) (hp : p = .asleep timed) :
      Effect t s p m s (.woken timed false) .none

namespace Effect

variable {t : T} {s s' : Shared T} {p p' : Place} {m : Move} {sig : Signal Unit}

lemma of_lockLoop : Effect t s p m (lockLoop t s).1 (lockLoop t s).2 .none := by
  unfold lockLoop
  by_cases hc : s.count = 0
  · simp only [hc, ne_eq, not_true_eq_false, if_false]
    exact .acquire hc
  · simp only [hc, ne_eq, not_false_eq_true, if_true]
    exact .sleep false hc

lemma of_tryLockLoop (b : Bool) :
    Effect t s p m (tryLockLoop t b s).1 (tryLockLoop t b s).2 .none := by
  unfold tryLockLoop
  split_ifs with hb hc
  · exact .sleep true hb.2
  · exact .acquire hc
  · exact .refuse (.inr hc)

lemma of_unlock : Effect t s .idle .unlock (RecursiveTimedMutex.unlock t s).1
    (RecursiveTimedMutex.unlock t s).2 .none := by
  unfold RecursiveTimedMutex.unlock
  by_cases hc : s.count - 1 = 0
  · simp only [hc, if_true]
    exact .free rfl rfl hc
  · simp only [hc, if_false]
    exact .unlock rfl rfl hc

variable [DecidableEq T]

lemma of_tryLock (free : Bool) :
    Effect t s .idle m (tryLock t free s).1 (tryLock t free s).2 .none := by
  unfold tryLock
  split_ifs with hfree hmax
  · exact .refuse (.inl rfl)
  · by_cases hc : s.count = 0
    · have hfresh : { s.again t with id := some t } = s.acquire t := by
        simp [Shared.again, Shared.acquire, hc]
      rw [hfresh]
      exact .acquire hc
    · have hid := hfree.2.resolve_left hc
      have hsame : { s.again t with id := some t } = s.again t := by
        simp [Shared.again, hid]
      rw [hsame]
      exact .again hid fun _ => hmax
  · exact .refuse (.inl rfl)

lemma of_tryLockUntil (b : Bool) :
    Effect t s .idle m (tryLockUntil t b s).1 (tryLockUntil t b s).2 .none := by
  unfold tryLockUntil
  split_ifs with hid hmax
  · exact .refuse (.inl rfl)
  · exact .again hid fun _ => hmax
  · exact of_tryLockLoop b

lemma of_lock : Effect t s .idle .lock (lock t s).1 (lock t s).2 .none := by
  unfold lock
  split_ifs with hid
  · exact .again hid fun h => absurd rfl h
  · exact of_lockLoop

lemma of_next (h : next t s p m = some (s', p', sig)) : Effect t s p m s' p' sig := by
  unfold next silently at h
  split at h <;> simp only [Option.some.injEq, Prod.mk.injEq, reduceCtorEq] at h <;>
    obtain ⟨rfl, rfl, rfl⟩ := h
  · exact of_lock
  · exact of_tryLock _
  · exact of_tryLockUntil _
  · exact of_unlock
  · exact .notify rfl
  · exact .wakeUp _ rfl
  · exact of_lockLoop
  · exact of_tryLockLoop _

end Effect

/-! ### The baton -/

/-- Notifications still to be sent, and waiters that were notified and have not looked at `count_`
yet. -/
def Place.notified : Place → ℕ
  | .woken _ true => 1
  | .notifying    => 1
  | _             => 0

/-- `lock` is not called by an owner that has reached the limit. -/
def BelowMax (t : T) (s : Shared T) (m : Move) : Prop :=
  m = .lock → s.id = some t → s.count ≠ countMax

lemma Effect.below_max {t : T} {s : Shared T} {m : Move} (hbelow : BelowMax t s m)
    (hid : s.id = some t) (hmax : m ≠ .lock → s.count ≠ countMax) : s.count ≠ countMax := by
  by_cases hm : m = .lock
  · exact hbelow hm hid
  · exact hmax hm

section

variable [DecidableEq T]

/-- A free mutex can be taken by one thread, and a notified waiter will look at it. -/
def baton : (monitor (T := T)).Baton () where
  avail s := if s.count = 0 then 1 else 0
  credit := Place.notified
  announces _ := False
  gain := 1
  asleepOn_wake p := by cases p <;> rfl
  credit_le_wake p := by cases p <;> simp [monitor, Place.wake, Place.notified]
  gain_le_wake p hp := by
    cases p <;> simp_all [monitor, Place.asleepOn, Place.wake, Place.notified]
  announces_wake _ := id

lemma Effect.keeps {t : T} {s s' : Shared T} {p p' : Place} {m : Move} {sig : Signal Unit}
    (h : Effect t s p m s' p' sig) (hbelow : BelowMax t s m) : baton.Keeps s p s' p' sig := by
  have hzero : ∀ {c : UInt64}, c ≠ 0 → (if c = 0 then 1 else 0) = 0 := fun hc => if_neg hc
  refine ⟨fun hp => ?_, False.elim, .inr (.inr ?_)⟩
  · cases h with
    | sleep timed hc => exact hzero hc
    | _ => cases hp
  · cases h with
    | acquire hc => exact .inl rfl
    | again hid hmax => exact .inl (hzero (add_one_ne_zero (below_max hbelow hid hmax)))
    | refuse h =>
      rcases h with rfl | hc
      · exact .inr le_rfl
      · exact .inl (hzero hc)
    | sleep timed hc => exact .inl (hzero hc)
    | unlock hp hm hc => exact .inl (hzero hc)
    | free hp hm hc =>
      subst hp
      right
      simp [baton, Place.notified, Monitor.Baton.sent]
    | notify hp =>
      subst hp
      exact .inr le_rfl
    | wakeUp timed hp =>
      subst hp
      exact .inr le_rfl

end

/-! ### The law -/

variable [DecidableEq T]

/-- `unlock` is called by a thread that holds the mutex, and `lock` by none that holds it as often
as `count_` can tell. -/
def Allowed (s : Config T (Shared T) Place) (a : Act T Move) : Prop :=
  (a.move = .unlock → Holds a.tid s.shared.log) ∧
    (a.move = .lock → Holds a.tid s.shared.log → s.shared.count ≠ countMax)

instance (s : Config T (Shared T) Place) (a : Act T Move) : Decidable (Allowed s a) :=
  inferInstanceAs (Decidable ((_ → _) ∧ (_ → _ → _)))

/-- The owner holds the mutex `count_` times over. -/
structure Owned (s : Shared T) : Prop where
  accounts : Accounts s.log s.id s.count.toNat
  null_iff : s.id = none ↔ s.count = 0

namespace Owned

variable {t : T} {s s' : Shared T}

lemma count_ne_zero (h : Owned s) (hid : s.id = some t) : s.count ≠ 0 := by
  intro h0
  have hnone := h.null_iff.mpr h0
  simp [hid] at hnone

lemma holds_iff (h : Owned s) : Holds t s.log ↔ s.id = some t :=
  ⟨fun ht => (h.accounts.eq_of_holds ht).1, fun hid =>
    (h.accounts.holds_iff (Nat.pos_of_ne_zero fun h0 =>
      h.count_ne_zero hid (UInt64.toNat_inj.mp h0))).mpr hid⟩

lemma step {p p' : Place} {m : Move} {sig : Signal Unit} (h : Owned s)
    (he : Effect t s p m s' p' sig) (hbelow : BelowMax t s m)
    (hu : m = .unlock → Holds t s.log) : Owned s' := by
  cases he with
  | acquire hc =>
    have hacc := h.accounts
    rw [h.null_iff.mpr hc] at hacc
    exact ⟨hacc.acquire t, by simp [Shared.acquire]⟩
  | again hid hmax =>
    have hmax := Effect.below_max hbelow hid hmax
    have hacc := h.accounts
    refine ⟨?_, ?_⟩
    · show Accounts (.acquired t :: s.log) s.id (s.count + 1).toNat
      rw [hid] at hacc ⊢
      rw [toNat_add_one hmax]
      exact hacc.again
    · simp [Shared.again, hid, add_one_ne_zero hmax]
  | refuse hp => exact ⟨h.accounts.failed t, h.null_iff⟩
  | sleep timed hc => exact h
  | unlock hp hm hc =>
    have hid := h.holds_iff.mp (hu hm)
    have hacc := h.accounts
    rw [hid, ← toNat_sub_one_add_one (h.count_ne_zero hid)] at hacc
    refine ⟨?_, by simp [hid, hc]⟩
    show Accounts (.released t :: s.log) s.id (s.count - 1).toNat
    rw [hid]
    exact hacc.release
  | free hp hm hc =>
    have hid := h.holds_iff.mp (hu hm)
    have hacc := h.accounts
    rw [hid, ← toNat_sub_one_add_one (h.count_ne_zero hid), hc, UInt64.toNat_zero] at hacc
    exact ⟨hacc.release.clear, by simp⟩
  | notify hp => exact h
  | wakeUp timed hp => exact h

end Owned

variable [Fintype T] {s s' : Config T (Shared T) Place}

/-- What the calls and the threads in their waits say about `count_` and `id_`. -/
structure Law (s : Config T (Shared T) Place) : Prop where
  count_eq : ∀ t, s.shared.id = some t →
    acquisitions t s.shared.log = releases t s.shared.log + s.shared.count.toNat
  owner_iff : ∀ t, s.shared.id = some t ↔ Holds t s.shared.log
  null_iff : s.shared.id = none ↔ s.shared.count = 0
  unique : ∀ t u, Holds t s.shared.log → Holds u s.shared.log → t = u
  /-- Attempts that return `false` leave `count_` and `id_` alone, and so do waits that go on. -/
  failed : ∀ a s', monitor.machine.step s a = some s' →
    (s'.shared.log = s.shared.log ∨ s'.shared.log = .failed a.tid :: s.shared.log) →
    s'.shared.count = s.shared.count ∧ s'.shared.id = s.shared.id
  sleeper : s.shared.count = 0 → (∃ t timed, s.pc t = .asleep timed) →
    (∃ u, s.pc u = .notifying) ∨ ∃ u timed, s.pc u = .woken timed true

lemma eq_of_failed {a : Act T Move} (hs : monitor.machine.step s a = some s')
    (hlog : s'.shared.log = s.shared.log ∨ s'.shared.log = .failed a.tid :: s.shared.log) :
    s'.shared.count = s.shared.count ∧ s'.shared.id = s.shared.id := by
  obtain ⟨sh, p, sig, hn, hd⟩ := Monitor.step_eq_some.mp hs
  rw [Monitor.shared_of_deliver hd] at hlog ⊢
  have heffect : Effect a.tid s.shared (s.pc a.tid) a.move sh p sig := Effect.of_next hn
  cases heffect with
  | acquire hc => simp [Shared.acquire] at hlog
  | again hid hmax => simp [Shared.again] at hlog
  | unlock hp hm hc => simp at hlog
  | free hp hm hc => simp at hlog
  | _ => exact ⟨rfl, rfl⟩

lemma law_of_owned (h : Owned s.shared) (hc : baton.Covered s) : Law s := by
  refine ⟨fun t hid => ?_, fun t => h.holds_iff.symm, h.null_iff, fun t u ht hu => ?_,
    fun _ _ => eq_of_failed, fun h0 hsleep => ?_⟩
  · have hacc := h.accounts t
    rwa [if_pos hid] at hacc
  · exact Option.some.inj ((h.holds_iff.mp ht).symm.trans (h.holds_iff.mp hu))
  · obtain ⟨t, timed, ht⟩ := hsleep
    have hcredit : 0 < tally Place.notified s.pc := by
      rcases hc ⟨t, by rw [ht]; rfl⟩ with ⟨_, hfalse⟩ | hle
      · exact hfalse.elim
      · simpa [baton, h0, Nat.succ_le_iff] using hle
    obtain ⟨u, hu⟩ := tally_pos_iff.mp hcredit
    cases hp : s.pc u with
    | woken timed notified =>
      cases notified with
      | true => exact .inr ⟨u, timed, hp⟩
      | false => simp [hp, Place.notified] at hu
    | notifying => exact .inl ⟨u, hp⟩
    | _ => simp [hp, Place.notified] at hu

end RecursiveTimedMutex

end Sync
