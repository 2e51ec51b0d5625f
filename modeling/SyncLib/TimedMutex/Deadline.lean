import SyncLib.ConditionVariable
import SyncLib.TimedMutex.Recursive
import SyncLib.TimedMutex.Timed

/-!
# The deadlines of `try_lock_for`

`try_lock_for` of both mutexes adds the duration to a reading of the steady clock. Where the sum
wraps around the deadline is over at once, and so it is for `wait_for` with a predicate.
-/

namespace Sync

open Core TimedWait ConditionVariable

/-! ### The loop of `try_lock_until` -/

namespace TimedWait

variable {G : Type}

/-- `while (no_timeout && ..)`, for the guarded data that are `busy`. -/
def waitWhile (busy : G → Bool) (time : Int64) : ℕ → Bool → Timed G (Option Unit)
  | 0, _         => return none
  | n + 1, noTimeout => do
    if noTimeout && busy (← load) then
      let status ← waitUntil time
      waitWhile busy time n (status = .noTimeout)
    else return some ()

/-- The loop of `try_lock_until` and what follows it: data that are not busy become `taken`. -/
def takeUntil (busy : G → Bool) (taken : G) (time : Int64) (n : ℕ) (noTimeout : Bool) :
    Timed G (Option Bool) := do
  match ← waitWhile busy time n noTimeout with
  | none    => return none
  | some () =>
    if busy (← load) then
      unlockMtx
      return some false
    else
      store taken
      unlockMtx
      return some true

variable {e : Surroundings G} {w : Progress G} {time dur : Int64} {n : ℕ} {busy : G → Bool}
  {taken : G} {noTimeout : Bool}

/-- One pass of the loop, or what follows it. -/
lemma wp_takeUntil_succ {Q : Option Bool → Progress G → Prop} :
    e.wp (takeUntil busy taken time (n + 1) noTimeout) Q w ↔
      if noTimeout && busy w.data then
        e.wp (waitUntil time)
          (fun status => e.wp (takeUntil busy taken time n (status = .noTimeout)) Q) w
      else Q (some !busy w.data) { w with data := if busy w.data then w.data else taken } := by
  cases noTimeout with
  | false => cases hbusy : busy w.data <;> simp [takeUntil, waitWhile, hbusy]
  | true =>
    cases hbusy : busy w.data
    · simp [takeUntil, waitWhile, hbusy]
    · simp [takeUntil, waitWhile, hbusy, Contract.wp_bind_eq]

@[simp] lemma wp_takeUntil_zero {Q : Option Bool → Progress G → Prop} :
    e.wp (takeUntil busy taken time 0 noTimeout) Q w ↔ Q none w := by
  simp [takeUntil, waitWhile]

/-- What the loop makes of the last look at the clock. -/
lemma inTime_eq {i : ℕ} : decide ((if e.steady.reading i < time then CvStatus.noTimeout
    else .timeout) = .noTimeout) = decide (e.steady.reading i < time) := by
  split_ifs with h <;> simp [h]

/-- The loop gives up at the deadline only. -/
lemma wp_takeUntil (hin : noTimeout = false → e.steady.Reached time w.steady) :
    e.wp (takeUntil busy taken time n noTimeout)
      (fun r w' => r = some false → e.steady.Reached time w'.steady) w := by
  induction n generalizing w noTimeout with
  | zero => simp
  | succ n ih =>
    rw [wp_takeUntil_succ]
    by_cases hwait : (noTimeout && busy w.data) = true
    · rw [if_pos hwait]
      refine wp_waitUntil fun i w' _ hi _ => ih fun hfalse => ?_
      rw [inTime_eq, decide_eq_false_iff_not] at hfalse
      exact ⟨i, hi ▸ i.lt_succ_self, Int64.not_lt.mp hfalse⟩
    · rw [if_neg hwait]
      intro hr
      have hbusy : busy w.data = true := by simpa using hr
      rw [hbusy, Bool.and_true, Bool.not_eq_true] at hwait
      exact hin hwait

/-- After the deadline the loop does not wait. -/
lemma wp_takeUntil_over {b : Bool} (hb : (!busy w.data) = b) :
    e.wp (takeUntil busy taken time n false) (fun r _ => r = some b ∨ r = none ∧ n = 0) w := by
  cases n with
  | zero => simp
  | succ n => simp [wp_takeUntil_succ, hb]

/-- The loop ends once the clock has reached the deadline: in each pass but the last it looks at the
clock, the `k`-th time at the latest to find that its time is over. -/
lemma takeUntil_returns {k : ℕ} (hk : time ≤ e.steady.reading k) (hn : 0 < n)
    (hin : noTimeout = true → w.steady ≤ k ∧ k + 1 < w.steady + n) :
    e.wp (takeUntil busy taken time n noTimeout) (fun r _ => r ≠ none) w := by
  induction n generalizing w noTimeout with
  | zero => cases hn
  | succ n ih =>
    rw [wp_takeUntil_succ]
    by_cases hwait : (noTimeout && busy w.data) = true
    · rw [if_pos hwait]
      obtain ⟨hle, hpasses⟩ := hin (Bool.and_elim_left hwait)
      refine wp_waitUntil fun i w' hi hsteady _ => ih (by omega) fun htrue => ?_
      rw [inTime_eq, decide_eq_true_iff] at htrue
      have hik := Clock.lt_of_reading_lt htrue hk
      omega
    · rw [if_neg hwait]
      exact Option.some_ne_none _

end TimedWait

/-! ### `timed_mutex` -/

namespace TimedMutex.Attempt

variable {e : Surroundings Bool} {w : Progress Bool} {time dur : Int64} {n : ℕ}

/-- `try_lock_until`, for a time on the steady clock; the guarded data are `locked_`. -/
def tryLockUntil (time : Int64) (n : ℕ) : Timed Bool (Option Bool) := do
  lockMtx
  let now ← steadyNow
  takeUntil id true time n (now < time)

def tryLockFor (dur : Int64) (n : ℕ) : Timed Bool (Option Bool) := attemptFor tryLockUntil dur n

/-- A pass of the loop is what the threads around a mutex do as one step. -/
theorem pass_iff {T : Type*} {t : T} {s : Shared T} {noTimeout : Bool}
    {Q : Option Bool → Progress Bool → Prop} (hs : w.data = s.locked) :
    e.wp (takeUntil id true time (n + 1) noTimeout) Q w ↔
      match TimedMutex.tryLockUntil t noTimeout s with
      | (_, .asleep _) => e.wp (waitUntil time)
          (fun status => e.wp (takeUntil id true time n (status = .noTimeout)) Q) w
      | (s', _) => Q (some !s.locked) { w with data := s'.locked } := by
  rw [wp_takeUntil_succ]
  cases noTimeout <;> cases hl : s.locked <;>
    simp [TimedMutex.tryLockUntil, Shared.acquire, Shared.refuse, hs, hl]

lemma wp_tryLockUntil : e.wp (tryLockUntil time n)
    (fun r w' => r = some false → e.steady.Reached time w'.steady) w := by
  simp only [tryLockUntil, Contract.wp_bind, wp_lockMtx, wp_steadyNow]
  refine wp_takeUntil fun hlate => ?_
  rw [decide_eq_false_iff_not] at hlate
  exact ⟨w.steady, w.steady.lt_succ_self, Int64.not_lt.mp hlate⟩

lemma wp_tryLockUntil_over (w : Progress Bool) (hover : ∀ i, time < e.steady.reading i) :
    e.wp (tryLockUntil time n) (fun r _ => r = some (!e.found w.acquired) ∨ r = none ∧ n = 0)
      w := by
  have hlate : ∀ i, ¬ e.steady.reading i < time := fun i =>
    Int64.not_lt.mpr (Int64.le_of_lt (hover i))
  simp only [tryLockUntil, Contract.wp_bind, wp_lockMtx, wp_steadyNow, hlate, decide_false]
  exact wp_takeUntil_over rfl

/-- An attempt ends once the clock has reached its deadline. -/
theorem tryLockUntil_returns {k : ℕ} (hk : time ≤ e.steady.reading k) :
    ∃ n, e.wp (tryLockUntil time n) (fun r _ => r ≠ none) w := by
  refine ⟨k + 1, ?_⟩
  simp only [tryLockUntil, Contract.wp_bind, wp_lockMtx, wp_steadyNow]
  refine takeUntil_returns hk k.succ_pos fun hin => ?_
  rw [decide_eq_true_iff] at hin
  have hlt := Clock.lt_of_reading_lt hin hk
  exact ⟨hlt, Nat.lt_add_of_pos_left w.steady.succ_pos⟩

end TimedMutex.Attempt

/-! ### `recursive_timed_mutex` -/

namespace RecursiveTimedMutex

/-- What `mtx_` guards. -/
structure Guarded (T : Type) where
  count : UInt64
  id : Option T
  deriving DecidableEq, Repr

def Shared.guarded {T : Type} (s : Shared T) : Guarded T := ⟨s.count, s.id⟩

def Guarded.busy {T : Type} (g : Guarded T) : Bool := g.count ≠ 0

lemma Guarded.not_busy {T : Type} (g : Guarded T) : (!g.busy) = decide (g.count = 0) := by
  by_cases hc : g.count = 0 <;> simp [busy, hc]

namespace Attempt

variable {T : Type} {t : T} {e : Surroundings (Guarded T)} {w : Progress (Guarded T)}
  {time dur : Int64} {n : ℕ}

/-- A pass of the loop is what the threads around a mutex do as one step. -/
theorem pass_iff {s : Shared T} {noTimeout : Bool}
    {Q : Option Bool → Progress (Guarded T) → Prop} (hs : w.data = s.guarded) :
    e.wp (takeUntil Guarded.busy ⟨1, some t⟩ time (n + 1) noTimeout) Q w ↔
      match tryLockLoop t noTimeout s with
      | (_, .asleep _) => e.wp (waitUntil time) (fun status =>
          e.wp (takeUntil Guarded.busy ⟨1, some t⟩ time n (status = .noTimeout)) Q) w
      | (s', _) => Q (some (s.count = 0)) { w with data := s'.guarded } := by
  rw [wp_takeUntil_succ]
  cases noTimeout <;> by_cases hc : s.count = 0 <;>
    simp [tryLockLoop, Shared.guarded, Shared.acquire, Shared.refuse, Guarded.busy, hs, hc]

variable [DecidableEq T]

/-- `try_lock_until`, for a time on the steady clock. -/
def tryLockUntil (t : T) (time : Int64) (n : ℕ) : Timed (Guarded T) (Option Bool) := do
  lockMtx
  let g ← load
  if g.id = some t then
    if g.count = countMax then
      unlockMtx
      return some false
    else
      store { g with count := g.count + 1 }
      unlockMtx
      return some true
  else
    let now ← steadyNow
    takeUntil Guarded.busy ⟨1, some t⟩ time n (now < time)

def tryLockFor (t : T) (dur : Int64) (n : ℕ) : Timed (Guarded T) (Option Bool) :=
  attemptFor (tryLockUntil t) dur n

/-- The two ways through `try_lock_until`. -/
lemma wp_tryLockUntil_iff {Q : Option Bool → Progress (Guarded T) → Prop}
    (hmax : (e.found w.acquired).count ≠ countMax) : e.wp (tryLockUntil t time n) Q w ↔
      if (e.found w.acquired).id = some t then
        Q (some true) { e.acquire w with
          data := { e.found w.acquired with count := (e.found w.acquired).count + 1 } }
      else
        e.wp (takeUntil Guarded.busy ⟨1, some t⟩ time n (e.steady.reading w.steady < time)) Q
          { e.acquire w with steady := w.steady + 1 } := by
  simp only [tryLockUntil, Contract.wp_bind, wp_lockMtx, wp_load]
  by_cases hid : (e.found w.acquired).id = some t
  · simp [Surroundings.acquire, hid, hmax]
  · simp [Surroundings.acquire, hid]

lemma wp_tryLockUntil (hmax : (e.found w.acquired).count ≠ countMax) :
    e.wp (tryLockUntil t time n)
      (fun r w' => r = some false → e.steady.Reached time w'.steady) w := by
  rw [wp_tryLockUntil_iff hmax]
  split_ifs with hid
  · exact fun h => by cases h
  · refine wp_takeUntil fun hlate => ?_
    rw [decide_eq_false_iff_not] at hlate
    exact ⟨w.steady, w.steady.lt_succ_self, Int64.not_lt.mp hlate⟩

lemma wp_tryLockUntil_over (w : Progress (Guarded T))
    (hmax : (e.found w.acquired).count ≠ countMax) (hover : ∀ i, time < e.steady.reading i) :
    e.wp (tryLockUntil t time n) (fun r _ =>
      r = some (decide ((e.found w.acquired).count = 0 ∨ (e.found w.acquired).id = some t)) ∨
        r = none ∧ n = 0) w := by
  have hlate : ∀ i, ¬ e.steady.reading i < time := fun i =>
    Int64.not_lt.mpr (Int64.le_of_lt (hover i))
  rw [wp_tryLockUntil_iff hmax]
  split_ifs with hid
  · simp [hid]
  · simp only [hlate, decide_false, hid, or_false]
    exact wp_takeUntil_over (Guarded.not_busy _)

/-- An attempt ends once the clock has reached its deadline. -/
theorem tryLockUntil_returns {k : ℕ} (hk : time ≤ e.steady.reading k)
    (hmax : (e.found w.acquired).count ≠ countMax) :
    ∃ n, e.wp (tryLockUntil t time n) (fun r _ => r ≠ none) w := by
  refine ⟨k + 1, ?_⟩
  rw [wp_tryLockUntil_iff hmax]
  split_ifs with hid
  · exact Option.some_ne_none _
  · refine takeUntil_returns hk k.succ_pos fun hin => ?_
    rw [decide_eq_true_iff] at hin
    have hlt := Clock.lt_of_reading_lt hin hk
    exact ⟨hlt, Nat.lt_add_of_pos_left w.steady.succ_pos⟩

end Attempt

end RecursiveTimedMutex

/-! ### The law -/

namespace TimedWait

/-- Any duration, clock, wake-ups, predicate and other threads: an attempt gives up early exactly
when its deadline cannot be represented and it finds nothing that lets it succeed at once. -/
theorem neverEarly_attempts {dur : Int64} (hdur : 0 ≤ dur) :
    (∀ {G : Type} (e : Surroundings G), NeverEarly e dur (waitForPred dur) ↔
      e.steady.Fits dur ∨ e.pred 0 = true ∨ e.pred 1 = true) ∧
    (∀ e : Surroundings Bool, NeverEarly e dur (TimedMutex.Attempt.tryLockFor dur) ↔
      e.steady.Fits dur ∨ e.found 0 = false) ∧
    ∀ {T : Type} [DecidableEq T] (t : T) (e : Surroundings (RecursiveTimedMutex.Guarded T)),
      (e.found 0).count ≠ RecursiveTimedMutex.countMax →
        (NeverEarly e dur (RecursiveTimedMutex.Attempt.tryLockFor t dur) ↔
          e.steady.Fits dur ∨ (e.found 0).count = 0 ∨ (e.found 0).id = some t) := by
  refine ⟨fun e => ?_, fun e => ?_, fun t e hmax => ?_⟩
  · rw [← Bool.or_eq_true]
    exact neverEarly_iff hdur (fun _ => wp_waitUntilPred) fun hover _ =>
      wp_waitUntilPred_over e.timed hover
  · rw [← Bool.not_eq_true']
    exact neverEarly_iff hdur (fun _ => TimedMutex.Attempt.wp_tryLockUntil) fun hover _ =>
      TimedMutex.Attempt.wp_tryLockUntil_over e.timed hover
  · rw [← decide_eq_true_iff (p := (e.found 0).count = 0 ∨ (e.found 0).id = some t)]
    exact neverEarly_iff hdur (fun _ => RecursiveTimedMutex.Attempt.wp_tryLockUntil hmax)
      fun hover _ => RecursiveTimedMutex.Attempt.wp_tryLockUntil_over e.timed hmax hover

/-- The clock reads `1` first and then always `now`, nobody gives the mutex back and the predicate
stays false. -/
def hopeless {G : Type} (g : G) (now : Int64) (h : 1 ≤ now) : Surroundings G where
  steady :=
    { reading := fun i => if i = 0 then 1 else now
      mono := fun i j hij => by
        by_cases hj : j = 0
        · simp [hj, Nat.le_zero.mp (hj ▸ hij)]
        · rw [if_neg hj]
          split_ifs
          · exact h
          · exact Int64.le_refl now }
  system _ := 0
  found _ := g
  pred _ := false

/-- With 20 nanoseconds to go the three attempts give up when the clock reads `21`. -/
theorem neverEarly_attempts_twenty :
    NeverEarly (hopeless () 21 (by decide)) 20 (waitForPred 20) ∧
    NeverEarly (hopeless true 21 (by decide)) 20 (TimedMutex.Attempt.tryLockFor 20) ∧
    NeverEarly (hopeless ⟨3, some 7⟩ 21 (by decide)) 20
      (RecursiveTimedMutex.Attempt.tryLockFor 8 20) := by
  obtain ⟨hwait, htimed, hrecursive⟩ := neverEarly_attempts (show 0 ≤ (20 : Int64) by decide)
  refine ⟨(hwait _).mpr (.inl ?_), (htimed _).mpr (.inl ?_), (hrecursive 8 _ ?_).mpr (.inl ?_)⟩
  all_goals decide

example : ((TimedMutex.Attempt.tryLockFor 20 2).run
    (hopeless true 21 (by decide)).answer (hopeless true 21 (by decide)).start).1
      = some false := by decide

/-- With the longest duration the three attempts give up while the clock stands still. -/
theorem early_attempts :
    ¬ NeverEarly (hopeless () 1 (by decide)) .maxValue (waitForPred .maxValue) ∧
    ¬ NeverEarly (hopeless true 1 (by decide)) .maxValue
        (TimedMutex.Attempt.tryLockFor .maxValue) ∧
    ¬ NeverEarly (hopeless ⟨3, some 7⟩ 1 (by decide)) .maxValue
        (RecursiveTimedMutex.Attempt.tryLockFor 8 .maxValue) := by
  refine ⟨fun h => ?_, fun h => ?_, fun h => ?_⟩
  all_goals exact Clock.not_elapsed (by decide) (h 1 rfl)

end TimedWait

end Sync
