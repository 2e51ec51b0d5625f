import SyncLib.Core.Monitor
import SyncLib.SharedMutex.Word

/-!
# Threads that use one `shared_mutex_base`

The methods of `shared_mutex_base` and the timed ones of `shared_timed_mutex`, cut at their waits
into sections that run with `mtx_` held. A `wait_until` ends by a notification, spuriously or by
the clock, and its status is whatever the clock says by then. `Effect` is what a section does to
the flag, the count of readers and the thread.
-/

namespace Sync

open Core

namespace SharedMutex

variable {w : ℕ}

/-! ### Threads -/

/-- `gate1_` and `gate2_`. -/
inductive Gate
  | gate1
  | gate2
  deriving DecidableEq, Repr

/-- The waits in the methods. -/
inductive Wait
  | lockGate1
  | lockGate2
  | lockShared
  | tryLockUntilGate1
  | tryLockUntilGate2
  | tryLockSharedUntil
  deriving DecidableEq, Repr

def Wait.gate : Wait → Gate
  | .lockGate2 | .tryLockUntilGate2 => .gate2
  | _                               => .gate1

inductive Place
  /-- In no method. -/
  | outside
  /-- In the wait, not notified. -/
  | asleep (x : Wait)
  /-- Woken in the wait, before it has the mutex again. -/
  | woken (x : Wait)
  deriving DecidableEq, Repr

/-- At `gate2_`. -/
def Place.draining : Place → Bool
  | .outside              => false
  | .asleep x | .woken x => x.gate == .gate2

/-- Where a thread is, whether it holds the mutex exclusively, and how often it holds it
shared. -/
structure Thread where
  place : Place := .outside
  exclusive : Bool := false
  shared : ℕ := 0
  deriving DecidableEq, Repr

namespace Thread

def wait (th : Thread) (x : Wait) : Thread := { th with place := .asleep x }

def leave (th : Thread) : Thread := { th with place := .outside }

def acquire (th : Thread) : Thread := { th with place := .outside, exclusive := true }

def acquireShared (th : Thread) : Thread :=
  { th with place := .outside, shared := th.shared + 1 }

lemma leave_eq {th : Thread} (h : th.place = .outside) : th.leave = th := by
  rw [leave, ← h]

def asleepOn (th : Thread) : Option Gate :=
  match th.place with
  | .asleep x => some x.gate
  | _         => none

def wake (th : Thread) : Thread :=
  match th.place with
  | .asleep x => { th with place := .woken x }
  | _         => th

end Thread

/-! ### Sections -/

/-- The word and the thread after a section, and what it signals. -/
abbrev Outcome (w : ℕ) := Word w × Thread × Signal Gate

/-- `lock` and `try_lock_until`, from the test of the readers. -/
def drain (x : Wait) (state : Word w) (th : Thread) : Outcome w :=
  if readers state ≠ 0 then (state, th.wait x, .none) else (state, th.acquire, .none)

/-- `lock` and `try_lock_until`, from the test of the flag, with their waits. -/
def enter (gate1 gate2 : Wait) (state : Word w) (th : Thread) : Outcome w :=
  if entered state then (state, th.wait gate1, .none) else drain gate2 (state ||| writeEntered) th

def lock : Word w → Thread → Outcome w := enter .lockGate1 .lockGate2

def tryLock (state : Word w) (th : Thread) : Outcome w :=
  if state = 0 then (writeEntered, th.acquire, .none) else (state, th, .none)

def unlock (th : Thread) : Outcome w := (0, { th with exclusive := false }, .all .gate1)

/-- The last statements of the methods that lock shared. -/
def grant (state : Word w) (th : Thread) : Outcome w :=
  (withReaders state (readers state + 1), th.acquireShared, .none)

/-- `lock_shared` and `try_lock_shared_until`, from the test, with their wait. -/
def enterShared (gate1 : Wait) (state : Word w) (th : Thread) : Outcome w :=
  if entered state || readers state == nReaders then (state, th.wait gate1, .none)
  else grant state th

/-- The wait is read as `gate1_.wait(lock)`. -/
def lockShared : Word w → Thread → Outcome w := enterShared .lockShared

def tryLockShared (state : Word w) (th : Thread) : Outcome w :=
  if !entered state && readers state != nReaders then grant state th else (state, th, .none)

def unlockShared (state : Word w) (th : Thread) : Outcome w :=
  let count := readers state - 1
  let state := withReaders state count
  (state, { th with shared := th.shared - 1 },
    if entered state then (if count = 0 then .one .gate2 else .none)
    else if count = nReaders - 1 then .one .gate1 else .none)

def tryLockUntil : Word w → Thread → Outcome w := enter .tryLockUntilGate1 .tryLockUntilGate2

/-- `try_lock_until` after the wait at `gate1_`. -/
def tryLockUntilGate1 (timeout : Bool) (state : Word w) (th : Thread) : Outcome w :=
  if !entered state then drain .tryLockUntilGate2 (state ||| writeEntered) th
  else if timeout then (state, th.leave, .none)
  else (state, th.wait .tryLockUntilGate1, .none)

/-- `try_lock_until` after the wait at `gate2_`. -/
def tryLockUntilGate2 (timeout : Bool) (state : Word w) (th : Thread) : Outcome w :=
  if readers state = 0 then (state, th.acquire, .none)
  else if timeout then (state &&& ~~~writeEntered, th.leave, .all .gate1)
  else (state, th.wait .tryLockUntilGate2, .none)

def tryLockSharedUntil : Word w → Thread → Outcome w := enterShared .tryLockSharedUntil

/-- `try_lock_shared_until` after the wait. -/
def tryLockSharedUntilGate1 (timeout : Bool) (state : Word w) (th : Thread) : Outcome w :=
  if !entered state && decide (readers state < nReaders) then grant state th
  else if timeout then (state, th.leave, .none)
  else (state, th.wait .tryLockSharedUntil, .none)

/-- What follows a wait. -/
def resume (timeout : Bool) : Wait → Word w → Thread → Outcome w
  | .lockGate1          => lock
  | .lockGate2          => drain .lockGate2
  | .lockShared         => lockShared
  | .tryLockUntilGate1  => tryLockUntilGate1 timeout
  | .tryLockUntilGate2  => tryLockUntilGate2 timeout
  | .tryLockSharedUntil => tryLockSharedUntilGate1 timeout

/-! ### Steps -/

/-- A call, the end of a sleep without a notification, or the section after a wait; `timeout` is
the status of a timed wait. -/
inductive Move
  | lock
  | tryLock
  | unlock
  | lockShared
  | tryLockShared
  | unlockShared
  | tryLockUntil
  | tryLockSharedUntil
  | wakeUp
  | proceed (timeout : Bool)
  deriving DecidableEq, Repr

/-- One section of a thread; it unlocks only what it holds. -/
def next (state : Word w) (th : Thread) (m : Move) : Option (Outcome w) :=
  match th.place, m with
  | .outside, .lock => some (lock state th)
  | .outside, .tryLock => some (tryLock state th)
  | .outside, .unlock => if th.exclusive then some (unlock th) else none
  | .outside, .lockShared => some (lockShared state th)
  | .outside, .tryLockShared => some (tryLockShared state th)
  | .outside, .unlockShared => if 0 < th.shared then some (unlockShared state th) else none
  | .outside, .tryLockUntil => some (tryLockUntil state th)
  | .outside, .tryLockSharedUntil => some (tryLockSharedUntil state th)
  | .asleep x, .wakeUp => some (state, { th with place := .woken x }, .none)
  | .woken x, .proceed timeout => some (resume timeout x state th)
  | _, _ => none

variable {T : Type*}

/-- All threads around one mutex. -/
def monitor : Monitor T (Word w) Thread Gate Move where
  next _ := next
  asleepOn := Thread.asleepOn
  wake := Thread.wake

/-- A mutex that has just been constructed, all threads outside it. -/
def start : Config T (Word w) Thread := ⟨0, fun _ => {}⟩

/-! ### Effects -/

/-- What a section does, where the flag is `flag`, `count` readers are counted and `n` is the limit
of the readers. -/
inductive Effect (n : ℕ) (flag : Bool) (count : ℕ) (th : Thread) :
    Bool → ℕ → Thread → Signal Gate → Prop
  | giveUp (hd : th.place.draining = false) : Effect n flag count th flag count th.leave .none
  | block (x : Wait) (hd : th.place.draining = false) (hx : x.gate = .gate1)
      (h : flag = true ∨ count = n) : Effect n flag count th flag count (th.wait x) .none
  | acquire (hd : th.place.draining = false) (hf : flag = false) (hc : count = 0) :
      Effect n flag count th true count th.acquire .none
  | drain (x : Wait) (hd : th.place.draining = false) (hx : x.gate = .gate2)
      (hf : flag = false) (hc : 0 < count) :
      Effect n flag count th true count (th.wait x) .none
  | drained (hd : th.place.draining = true) (hc : count = 0) :
      Effect n flag count th flag count th.acquire .none
  | drainOn (x : Wait) (hd : th.place.draining = true) (hx : x.gate = .gate2) (hc : 0 < count) :
      Effect n flag count th flag count (th.wait x) .none
  | withdraw (hd : th.place.draining = true) :
      Effect n flag count th false count th.leave (.all .gate1)
  | release (hp : th.place = .outside) (he : th.exclusive = true) :
      Effect n flag count th false 0 { th with exclusive := false } (.all .gate1)
  | share (hd : th.place.draining = false) (hf : flag = false) (hc : count < n) :
      Effect n flag count th flag (count + 1) th.acquireShared .none
  | unshare (hp : th.place = .outside) (hs : 0 < th.shared) :
      Effect n flag count th flag (count - 1) { th with shared := th.shared - 1 }
        (if flag then (if count = 1 then .one .gate2 else .none)
          else if count = n then .one .gate1 else .none)
  | wakeUp (x : Wait) (hp : th.place = .asleep x) :
      Effect n flag count th flag count { th with place := .woken x } .none

/-- The outcome of a section has an effect. -/
def Follows (flag : Bool) (count : ℕ) (th : Thread) (o : Outcome w) : Prop :=
  ∃ flag' count', Encodes o.1 flag' count' ∧
    Effect (nReaders : Word w).toNat flag count th flag' count' o.2.1 o.2.2

namespace Encodes

variable {state : Word w} {flag : Bool} {count : ℕ} {th : Thread}

/-- A thread that finds the flag clear sets it. -/
lemma follows_set (h : Encodes state false count) {x : Wait} (hx : x.gate = .gate2)
    (hd : th.place.draining = false) :
    Follows false count th (SharedMutex.drain x (state ||| writeEntered) th) := by
  rw [SharedMutex.drain]
  have henter := h.enter
  split_ifs with hr
  · rw [ne_eq, henter.readers_eq_zero] at hr
    exact ⟨_, _, henter, .drain x hd hx rfl (Nat.pos_of_ne_zero hr)⟩
  · rw [ne_eq, not_not, henter.readers_eq_zero] at hr
    exact ⟨_, _, henter, .acquire hd rfl hr⟩

lemma follows_drain (h : Encodes state flag count) {x : Wait} (hx : x.gate = .gate2)
    (hd : th.place.draining = true) : Follows flag count th (SharedMutex.drain x state th) := by
  rw [SharedMutex.drain]
  split_ifs with hr
  · rw [ne_eq, h.readers_eq_zero] at hr
    exact ⟨_, _, h, .drainOn x hd hx (Nat.pos_of_ne_zero hr)⟩
  · rw [ne_eq, not_not, h.readers_eq_zero] at hr
    exact ⟨_, _, h, .drained hd hr⟩

lemma follows_grant (h : Encodes state flag count) (hd : th.place.draining = false)
    (hf : flag = false) (hc : count < (nReaders : Word w).toNat) :
    Follows flag count th (grant state th) :=
  ⟨_, _, h.share hc, .share hd hf hc⟩

lemma follows_enter (h : Encodes state flag count) (hd : th.place.draining = false)
    {x y : Wait} (hx : x.gate = .gate1) (hy : y.gate = .gate2) :
    Follows flag count th (SharedMutex.enter x y state th) := by
  rw [SharedMutex.enter, h.entered_eq]
  split_ifs with hf
  · exact ⟨_, _, h, .block _ hd hx (.inl hf)⟩
  · rw [Bool.not_eq_true] at hf
    subst hf
    exact h.follows_set hy hd

lemma follows_tryLock (h : Encodes state flag count) (hp : th.place = .outside) :
    Follows flag count th (SharedMutex.tryLock state th) := by
  have hd : th.place.draining = false := by rw [hp]; rfl
  rw [SharedMutex.tryLock]
  split_ifs with hz
  · obtain ⟨rfl, rfl⟩ := h.eq_zero.mp hz
    exact ⟨_, _, encodes_writeEntered, .acquire hd rfl rfl⟩
  · refine ⟨_, _, h, ?_⟩
    have hg : Effect (nReaders : Word w).toNat flag count th flag count th.leave .none :=
      .giveUp hd
    rw [Thread.leave_eq hp] at hg
    exact hg

/-- The test of the methods that lock shared. -/
lemma blocked_iff (h : Encodes state flag count) :
    (entered state || readers state == nReaders) = true ↔
      flag = true ∨ count = (nReaders : Word w).toNat := by
  rw [Bool.or_eq_true, beq_iff_eq, h.entered_eq, h.readers_eq_nReaders]

lemma follows_enterShared (h : Encodes state flag count) (hd : th.place.draining = false)
    {x : Wait} (hx : x.gate = .gate1) :
    Follows flag count th (SharedMutex.enterShared x state th) := by
  rw [SharedMutex.enterShared]
  split_ifs with hb
  · exact ⟨_, _, h, .block _ hd hx (h.blocked_iff.mp hb)⟩
  · rw [h.blocked_iff, not_or, Bool.not_eq_true] at hb
    exact h.follows_grant hd hb.1 (lt_of_le_of_ne h.count_le hb.2)

lemma follows_tryLockShared (h : Encodes state flag count) (hp : th.place = .outside) :
    Follows flag count th (SharedMutex.tryLockShared state th) := by
  have hd : th.place.draining = false := by rw [hp]; rfl
  rw [SharedMutex.tryLockShared]
  split_ifs with hb
  · rw [Bool.and_eq_true, Bool.not_eq_true', bne_iff_ne, h.entered_eq, ne_eq,
      h.readers_eq_nReaders] at hb
    exact h.follows_grant hd hb.1 (lt_of_le_of_ne h.count_le hb.2)
  · refine ⟨_, _, h, ?_⟩
    have hg : Effect (nReaders : Word w).toNat flag count th flag count th.leave .none :=
      .giveUp hd
    rw [Thread.leave_eq hp] at hg
    exact hg

/-- What `unlock_shared` does to the word, and whom it notifies. -/
lemma unlockShared (h : Encodes state flag count) (hpos : 0 < count) (th : Thread) :
    Encodes (SharedMutex.unlockShared state th).1 flag (count - 1) ∧
      (SharedMutex.unlockShared state th).2 = ({ th with shared := th.shared - 1 },
        if flag then (if count = 1 then .one .gate2 else .none)
        else if count = (nReaders : Word w).toNat then .one .gate1 else .none) := by
  obtain ⟨hr, henc⟩ := h.unshare hpos
  have hle := h.count_le
  have hzero : readers state - 1 = 0 ↔ count = 1 := by
    rw [← BitVec.toNat_inj, hr, BitVec.ofNat_eq_ofNat, BitVec.toNat_zero]
    omega
  have hlast : readers state - 1 = nReaders - 1 ↔ count = (nReaders : Word w).toNat := by
    have hone : (1 : Word w).toNat = 1 := by simp
    have hsub : (nReaders - 1 : Word w).toNat = (nReaders : Word w).toNat - 1 := by
      rw [BitVec.toNat_sub_of_le, hone]
      rw [BitVec.le_def, hone]
      exact hpos.trans_le hle
    rw [← BitVec.toNat_inj, hr, hsub]
    omega
  refine ⟨henc, ?_⟩
  simp only [SharedMutex.unlockShared, henc.entered_eq, hzero, hlast]

lemma follows_unlockShared (h : Encodes state flag count) (hp : th.place = .outside)
    (hs : 0 < th.shared) (hle : th.shared ≤ count) :
    Follows flag count th (SharedMutex.unlockShared state th) := by
  obtain ⟨henc, hrest⟩ := h.unlockShared (hs.trans_le hle) th
  refine ⟨_, _, henc, ?_⟩
  rw [hrest]
  exact .unshare hp hs

lemma follows_tryLockUntilGate1 (h : Encodes state flag count)
    (hd : th.place.draining = false) (timeout : Bool) :
    Follows flag count th (SharedMutex.tryLockUntilGate1 timeout state th) := by
  rw [SharedMutex.tryLockUntilGate1, h.entered_eq]
  cases flag with
  | false => exact h.follows_set rfl hd
  | true =>
    cases timeout with
    | false => exact ⟨_, _, h, .block _ hd rfl (.inl rfl)⟩
    | true => exact ⟨_, _, h, .giveUp hd⟩

lemma follows_tryLockUntilGate2 (h : Encodes state flag count) (hd : th.place.draining = true)
    (timeout : Bool) : Follows flag count th (SharedMutex.tryLockUntilGate2 timeout state th) := by
  rw [SharedMutex.tryLockUntilGate2]
  split_ifs with hr ht
  · exact ⟨_, _, h, .drained hd (h.readers_eq_zero.mp hr)⟩
  · exact ⟨_, _, h.withdraw, .withdraw hd⟩
  · rw [h.readers_eq_zero] at hr
    exact ⟨_, _, h, .drainOn _ hd rfl (Nat.pos_of_ne_zero hr)⟩

lemma follows_tryLockSharedUntilGate1 (h : Encodes state flag count)
    (hd : th.place.draining = false) (timeout : Bool) :
    Follows flag count th (SharedMutex.tryLockSharedUntilGate1 timeout state th) := by
  rw [SharedMutex.tryLockSharedUntilGate1, h.entered_eq]
  have hiff : (!flag && decide (readers state < nReaders)) = true ↔
      flag = false ∧ count < (nReaders : Word w).toNat := by
    rw [Bool.and_eq_true, Bool.not_eq_true', decide_eq_true_eq, h.readers_lt_nReaders]
  split_ifs with hb ht
  · exact h.follows_grant hd (hiff.mp hb).1 (hiff.mp hb).2
  · exact ⟨_, _, h, .giveUp hd⟩
  · refine ⟨_, _, h, .block _ hd rfl ?_⟩
    have hle := h.count_le
    rw [hiff] at hb
    cases flag with
    | false => exact .inr (by by_contra hne; exact hb ⟨rfl, lt_of_le_of_ne hle hne⟩)
    | true => exact .inl rfl

lemma follows_resume (h : Encodes state flag count) {x : Wait} (hp : th.place = .woken x)
    (timeout : Bool) : Follows flag count th (resume timeout x state th) := by
  have hd : th.place.draining = (x.gate == .gate2) := by rw [hp]; rfl
  cases x with
  | lockGate1 => exact h.follows_enter hd rfl rfl
  | lockGate2 => exact h.follows_drain rfl hd
  | lockShared => exact h.follows_enterShared hd rfl
  | tryLockUntilGate1 => exact h.follows_tryLockUntilGate1 hd timeout
  | tryLockUntilGate2 => exact h.follows_tryLockUntilGate2 hd timeout
  | tryLockSharedUntil => exact h.follows_tryLockSharedUntilGate1 hd timeout

/-- Every section has an effect. -/
theorem follows (h : Encodes state flag count) (hle : th.shared ≤ count) {m : Move}
    {o : Outcome w} (hn : next state th m = some o) : Follows flag count th o := by
  rw [next.eq_def] at hn
  cases hp : th.place with
  | outside =>
    have hd : th.place.draining = false := by rw [hp]; rfl
    rw [hp] at hn
    cases m with
    | lock => cases hn; exact h.follows_enter hd rfl rfl
    | tryLock => cases hn; exact h.follows_tryLock hp
    | unlock =>
      simp only [Option.ite_none_right_eq_some, Option.some.injEq] at hn
      obtain ⟨he, rfl⟩ := hn
      exact ⟨_, _, encodes_zero, .release hp he⟩
    | lockShared => cases hn; exact h.follows_enterShared hd rfl
    | tryLockShared => cases hn; exact h.follows_tryLockShared hp
    | unlockShared =>
      simp only [Option.ite_none_right_eq_some, Option.some.injEq] at hn
      obtain ⟨hs, rfl⟩ := hn
      exact h.follows_unlockShared hp hs hle
    | tryLockUntil => cases hn; exact h.follows_enter hd rfl rfl
    | tryLockSharedUntil => cases hn; exact h.follows_enterShared hd rfl
    | wakeUp => cases hn
    | proceed timeout => cases hn
  | asleep x =>
    rw [hp] at hn
    cases m with
    | wakeUp => cases hn; exact ⟨_, _, h, .wakeUp x hp⟩
    | _ => cases hn
  | woken x =>
    rw [hp] at hn
    cases m with
    | proceed timeout => cases hn; exact h.follows_resume hp timeout
    | _ => cases hn

end Encodes

end SharedMutex

end Sync
