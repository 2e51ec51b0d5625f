import SyncLib.Core.Bits
import SyncLib.Core.Interleaving

/-!
# `fast_shared_mutex`

`rdcount_` starts at `LONG_MAX`, every reader takes one from it, and a writer takes `LONG_MAX`:
below `1` it sends readers to `rdsem_`. A writer that finds readers adds their number to `rdwait_`
and the readers that leave take one each; whoever brings it to `0` lets the writer go on. `wrmtx_`
is a mutex whose `try_lock` may fail without a reason, the semaphores are counters.
-/

namespace Sync

open Core

namespace FastSharedMutex

/-- `std::numeric_limits<long>::max()`. -/
def longMax : Int64 := Int64.maxValue

/-- The two methods that share their way to the writer's lock. -/
inductive Method
  | lock
  | tryLock
  deriving DecidableEq, Repr

/-- Where a thread is: outside of the methods, or before the operation that is named. -/
inductive Place
  | idle
  | reading
  | writing
  /-- `lock_shared`: `rdsem_.wait()`. -/
  | rdWait
  /-- `unlock_shared`: `rdwait_.fetch_add(-1)`. -/
  | paying
  /-- `unlock_shared`: `wrsem_.post()`. -/
  | posting
  /-- `lock`: `wrmtx_.lock()`. -/
  | locking
  /-- `rdcount_.fetch_sub(LONG_MAX)`. -/
  | subtracting (m : Method)
  /-- `rdwait_.fetch_add(LONG_MAX - count)`. -/
  | adding (m : Method) (count : Int64)
  /-- `lock`: `wrsem_.wait()`. -/
  | wrWait
  /-- `try_lock`: `rdcount_.fetch_add(LONG_MAX)`, and then `return false`. -/
  | restoring
  /-- `unlock`: `rdsem_.post(-count)`. -/
  | releasing (count : Int32)
  /-- `unlock`: `wrmtx_.unlock()`. -/
  | unlocking
  deriving DecidableEq, Repr

/-- A call, up to the end of its first operation (`lock` only begins), or the next operation of a
call; `ok` is false where the weak compare-exchange of `wrmtx_` fails without a reason. -/
inductive Move
  | lockShared
  | tryLockShared
  | unlockShared
  | lock
  | tryLock (ok : Bool)
  | unlock
  | proceed
  deriving DecidableEq, Repr

variable {T : Type*}

/-- The members, with `owner` for `wrmtx_`. `behind` is not in the code: it counts the readers that
`lock_shared` sent to `rdsem_` since the last `rdcount_.fetch_add(LONG_MAX)` of `unlock`. -/
structure Shared (T : Type*) where
  rdcount : Int64
  rdwait : Int64
  rdsem : ℕ
  wrsem : ℕ
  owner : Option T
  behind : ℕ
  deriving DecidableEq

/-! ### The methods -/

def lockShared (s : Shared T) : Shared T × Place :=
  if s.rdcount < 1 then
    ({ s with rdcount := s.rdcount + -1, behind := s.behind + 1 }, .rdWait)
  else ({ s with rdcount := s.rdcount + -1 }, .reading)

def tryLockShared (s : Shared T) : Shared T × Place :=
  ({ s with rdcount := s.rdcount + -1 }, if s.rdcount < 1 then .idle else .reading)

def unlockShared (s : Shared T) : Shared T × Place :=
  ({ s with rdcount := s.rdcount + 1 }, if s.rdcount < 0 then .paying else .idle)

/-- The inner branch of `unlock_shared`. -/
def pay (s : Shared T) : Shared T × Place :=
  ({ s with rdwait := s.rdwait + -1 }, if s.rdwait = 1 then .posting else .idle)

/-- Where the two methods go when there were no readers. -/
def Method.free : Method → Place
  | .lock    => .writing
  | .tryLock => .restoring

/-- Where the two methods go when there are readers left. -/
def Method.blocked : Method → Place
  | .lock    => .wrWait
  | .tryLock => .restoring

def subtract (m : Method) (s : Shared T) : Shared T × Place :=
  ({ s with rdcount := s.rdcount - longMax },
    if s.rdcount < longMax then .adding m s.rdcount else m.free)

def add (m : Method) (count : Int64) (s : Shared T) : Shared T × Place :=
  ({ s with rdwait := s.rdwait + (longMax - count) },
    if s.rdwait + longMax - count ≠ 0 then m.blocked else .writing)

/-- `unlock`, with the readers behind the writer counted as released. -/
def unlock (s : Shared T) : Shared T × Place :=
  let count := s.rdcount.toInt32
  ({ s with rdcount := s.rdcount + longMax, behind := 0 },
    if count < 0 then .releasing count else .unlocking)

/-- The argument of `rdsem_.post(-count)`. -/
def tokens (count : Int32) : ℕ := (-count).toUInt32.toNat

/-- One operation of thread `t`. -/
def next [DecidableEq T] (t : T) (s : Shared T) : Place → Move → Option (Shared T × Place)
  | .idle, .lockShared        => some (lockShared s)
  | .rdWait, .proceed         =>
    if 0 < s.rdsem then some ({ s with rdsem := s.rdsem - 1 }, .reading) else none
  | .idle, .tryLockShared     => some (tryLockShared s)
  | .reading, .unlockShared   => some (unlockShared s)
  | .paying, .proceed         => some (pay s)
  | .posting, .proceed        => some ({ s with wrsem := s.wrsem + 1 }, .idle)
  | .idle, .lock              => some (s, .locking)
  | .locking, .proceed        =>
    if s.owner = none then some ({ s with owner := some t }, .subtracting .lock) else none
  | .idle, .tryLock ok        =>
    if ok ∧ s.owner = none then some ({ s with owner := some t }, .subtracting .tryLock)
    else some (s, .idle)
  | .subtracting m, .proceed  => some (subtract m s)
  | .adding m count, .proceed => some (add m count s)
  | .wrWait, .proceed         =>
    if 0 < s.wrsem then some ({ s with wrsem := s.wrsem - 1 }, .writing) else none
  | .restoring, .proceed      => some ({ s with rdcount := s.rdcount + longMax }, .idle)
  | .writing, .unlock         => some (unlock s)
  | .releasing count, .proceed => some ({ s with rdsem := s.rdsem + tokens count }, .unlocking)
  | .unlocking, .proceed      => some ({ s with owner := none }, .idle)
  | _, _                      => none

/-- All threads around one mutex. -/
def code [DecidableEq T] : Code T (Shared T) Place Move := ⟨next⟩

def initial : Shared T := ⟨longMax, 0, 0, 0, none, 0⟩

def start : Config T (Shared T) Place := ⟨initial, fun _ => .idle⟩

/-! ### What an operation can do -/

/-- The operations of thread `t`, one constructor for each branch of the methods. -/
inductive Op (t : T) (s : Shared T) : Move → Place → Shared T → Place → Prop
  | enter {m : Move} (hm : m = .lockShared ∨ m = .tryLockShared) (h : ¬ s.rdcount < 1) :
      Op t s m .idle { s with rdcount := s.rdcount + -1 } .reading
  | divert (h : s.rdcount < 1) :
      Op t s .lockShared .idle { s with rdcount := s.rdcount + -1, behind := s.behind + 1 } .rdWait
  | refuse (h : s.rdcount < 1) :
      Op t s .tryLockShared .idle { s with rdcount := s.rdcount + -1 } .idle
  | admitted (h : 0 < s.rdsem) :
      Op t s .proceed .rdWait { s with rdsem := s.rdsem - 1 } .reading
  | leave (h : ¬ s.rdcount < 0) :
      Op t s .unlockShared .reading { s with rdcount := s.rdcount + 1 } .idle
  | depart (h : s.rdcount < 0) :
      Op t s .unlockShared .reading { s with rdcount := s.rdcount + 1 } .paying
  | pay (h : s.rdwait ≠ 1) :
      Op t s .proceed .paying { s with rdwait := s.rdwait + -1 } .idle
  | payLast (h : s.rdwait = 1) :
      Op t s .proceed .paying { s with rdwait := s.rdwait + -1 } .posting
  | post : Op t s .proceed .posting { s with wrsem := s.wrsem + 1 } .idle
  | begin : Op t s .lock .idle s .locking
  | fail (ok : Bool) (h : ok = false ∨ s.owner ≠ none) : Op t s (.tryLock ok) .idle s .idle
  | claim (h : s.owner = none) :
      Op t s .proceed .locking { s with owner := some t } (.subtracting .lock)
  | tryClaim (h : s.owner = none) :
      Op t s (.tryLock true) .idle { s with owner := some t } (.subtracting .tryLock)
  | announce (w : Method) (h : s.rdcount < longMax) :
      Op t s .proceed (.subtracting w) { s with rdcount := s.rdcount - longMax }
        (.adding w s.rdcount)
  | unopposed (w : Method) (h : ¬ s.rdcount < longMax) :
      Op t s .proceed (.subtracting w) { s with rdcount := s.rdcount - longMax } w.free
  | addBlocked (w : Method) (count : Int64) (h : s.rdwait + longMax - count ≠ 0) :
      Op t s .proceed (.adding w count) { s with rdwait := s.rdwait + (longMax - count) } w.blocked
  | addFree (w : Method) (count : Int64) (h : s.rdwait + longMax - count = 0) :
      Op t s .proceed (.adding w count) { s with rdwait := s.rdwait + (longMax - count) } .writing
  | drained (h : 0 < s.wrsem) :
      Op t s .proceed .wrWait { s with wrsem := s.wrsem - 1 } .writing
  | restore : Op t s .proceed .restoring { s with rdcount := s.rdcount + longMax } .idle
  | unlock (h : s.rdcount.toInt32 < 0) :
      Op t s .unlock .writing { s with rdcount := s.rdcount + longMax, behind := 0 }
        (.releasing s.rdcount.toInt32)
  | unlockAlone (h : ¬ s.rdcount.toInt32 < 0) :
      Op t s .unlock .writing { s with rdcount := s.rdcount + longMax, behind := 0 } .unlocking
  | release (count : Int32) :
      Op t s .proceed (.releasing count) { s with rdsem := s.rdsem + tokens count } .unlocking
  | finish : Op t s .proceed .unlocking { s with owner := none } .idle

lemma op_of_next [DecidableEq T] {t : T} {s sh : Shared T} {p q : Place} {m : Move}
    (h : next t s p m = some (sh, q)) : Op t s m p sh q := by
  cases p with
  | idle =>
    cases m with
    | lockShared =>
      have hcall : lockShared s = (sh, q) := Option.some.inj h
      rw [lockShared] at hcall
      split_ifs at hcall with hfull <;> obtain ⟨rfl, rfl⟩ := Prod.mk.inj hcall
      · exact .divert hfull
      · exact .enter (.inl rfl) hfull
    | tryLockShared =>
      obtain ⟨rfl, rfl⟩ := Prod.mk.inj (Option.some.inj h)
      split_ifs with hfull
      · exact .refuse hfull
      · exact .enter (.inr rfl) hfull
    | lock =>
      obtain ⟨rfl, rfl⟩ := Prod.mk.inj (Option.some.inj h)
      exact .begin
    | tryLock ok =>
      rw [next.eq_def] at h
      simp only at h
      split_ifs at h with hfree <;> obtain ⟨rfl, rfl⟩ := Prod.mk.inj (Option.some.inj h)
      · obtain ⟨rfl, hfree⟩ := hfree
        exact .tryClaim hfree
      · exact .fail ok (by simpa [Classical.or_iff_not_imp_left] using hfree)
    | unlockShared | unlock | proceed => cases h
  | reading =>
    cases m with
    | unlockShared =>
      obtain ⟨rfl, rfl⟩ := Prod.mk.inj (Option.some.inj h)
      split_ifs with hneg
      · exact .depart hneg
      · exact .leave hneg
    | _ => cases h
  | writing =>
    cases m with
    | unlock =>
      obtain ⟨rfl, rfl⟩ := Prod.mk.inj (Option.some.inj h)
      split_ifs with hneg
      · exact .unlock hneg
      · exact .unlockAlone hneg
    | _ => cases h
  | rdWait =>
    cases m with
    | proceed =>
      rw [next.eq_def] at h
      simp only [Option.ite_none_right_eq_some] at h
      obtain ⟨rfl, rfl⟩ := Prod.mk.inj (Option.some.inj h.2)
      exact .admitted h.1
    | _ => cases h
  | paying =>
    cases m with
    | proceed =>
      obtain ⟨rfl, rfl⟩ := Prod.mk.inj (Option.some.inj h)
      split_ifs with hlast
      · exact .payLast hlast
      · exact .pay hlast
    | _ => cases h
  | posting =>
    cases m with
    | proceed =>
      obtain ⟨rfl, rfl⟩ := Prod.mk.inj (Option.some.inj h)
      exact .post
    | _ => cases h
  | locking =>
    cases m with
    | proceed =>
      rw [next.eq_def] at h
      simp only [Option.ite_none_right_eq_some] at h
      obtain ⟨rfl, rfl⟩ := Prod.mk.inj (Option.some.inj h.2)
      exact .claim h.1
    | _ => cases h
  | subtracting w =>
    cases m with
    | proceed =>
      obtain ⟨rfl, rfl⟩ := Prod.mk.inj (Option.some.inj h)
      split_ifs with hlt
      · exact .announce w hlt
      · exact .unopposed w hlt
    | _ => cases h
  | adding w count =>
    cases m with
    | proceed =>
      obtain ⟨rfl, rfl⟩ := Prod.mk.inj (Option.some.inj h)
      split_ifs with hne
      · exact .addBlocked w count hne
      · exact .addFree w count (not_not.mp hne)
    | _ => cases h
  | wrWait =>
    cases m with
    | proceed =>
      rw [next.eq_def] at h
      simp only [Option.ite_none_right_eq_some] at h
      obtain ⟨rfl, rfl⟩ := Prod.mk.inj (Option.some.inj h.2)
      exact .drained h.1
    | _ => cases h
  | restoring =>
    cases m with
    | proceed =>
      obtain ⟨rfl, rfl⟩ := Prod.mk.inj (Option.some.inj h)
      exact .restore
    | _ => cases h
  | releasing count =>
    cases m with
    | proceed =>
      obtain ⟨rfl, rfl⟩ := Prod.mk.inj (Option.some.inj h)
      exact .release count
    | _ => cases h
  | unlocking =>
    cases m with
    | proceed =>
      obtain ⟨rfl, rfl⟩ := Prod.mk.inj (Option.some.inj h)
      exact .finish
    | _ => cases h

/-- A step of the interleaving is an operation of one thread. -/
lemma op_of_step [DecidableEq T] {s s' : Config T (Shared T) Place} {a : T × Move}
    (h : code.machine.step s a = some s') :
    ∃ sh p, Op a.1 s.shared a.2 (s.pc a.1) sh p ∧ ⟨sh, Function.update s.pc a.1 p⟩ = s' := by
  obtain ⟨sh, p, hn, hs⟩ := Code.step_eq_some.mp h
  exact ⟨sh, p, op_of_next hn, hs⟩

/-! ### What the places hold -/

namespace Place

/-- The thread is in the part of a method that owns `wrmtx_`. -/
def inside : Place → Bool
  | .subtracting _ | .adding _ _ | .wrWait | .restoring | .writing | .releasing _
  | .unlocking => true
  | _ => false

/-- A writer between its `rdcount_.fetch_sub(LONG_MAX)` and the `fetch_add` that undoes it. -/
def subtracted : Place → ℕ
  | .adding _ _ | .wrWait | .restoring | .writing => 1
  | _ => 0

/-- An active reader. -/
def active : Place → ℕ
  | .reading => 1
  | _        => 0

/-- A reader that waits on `rdsem_`. -/
def waiting : Place → ℕ
  | .rdWait => 1
  | _       => 0

/-- A reader in `unlock_shared` that has to decrement `rdwait_`. -/
def leaving : Place → ℕ
  | .paying => 1
  | _       => 0

/-- A reader in `unlock_shared` that has to post `wrsem_`. -/
def waking : Place → ℕ
  | .posting => 1
  | _        => 0

/-- The tokens that a writer is about to post to `rdsem_`. -/
def pending : Place → ℕ
  | .releasing count => tokens count
  | _                => 0

/-- The place is one of `try_lock` after it got `wrmtx_`. -/
def trying : Place → Bool
  | .subtracting .tryLock | .adding .tryLock _ | .restoring => true
  | _ => false

end Place

/-- The number that the threads' places have of something. -/
abbrev total [Fintype T] (w : Place → ℕ) (s : Config T (Shared T) Place) : ℕ := tally w s.pc

end FastSharedMutex

end Sync
