import SyncLib.Core.Clock
import SyncLib.Core.Program

/-!
# The timed waits of `condition_variable`

A wait for a duration computes a deadline on the steady clock, `wait_until` turns the deadline back
into a duration, and the innermost `wait_for` turns that into a time on the system clock. Why it has
woken up the thread is not told: it looks at the steady clock again.
-/

namespace Sync

open Core

namespace TimedWait

/-! ### The operations -/

/-- What the calls are made of: a look at a clock, a section under the mutex, a wait on the
condition variable, an access to the data `G` that the mutex guards, or a call of the predicate. -/
inductive Op (G : Type)
  | steadyNow
  | systemNow
  | lock
  | unlock
  | condTimedwait (time : Int64)
  | load
  | store (g : G)
  | pred

/-- What an operation returns. -/
abbrev Op.Answer {G : Type} : Op G → Type
  | .steadyNow | .systemNow => Int64
  | .load                   => G
  | .pred                   => Bool
  | _                       => Unit

/-- A call by one thread. -/
abbrev Timed (G : Type) : Type → Type := Program (Op G) Op.Answer

section

variable {G : Type}

/-- `steady_clock::now()`. -/
def steadyNow : Timed G Int64 := Program.op Op.steadyNow

/-- `system_clock::now()`. -/
def systemNow : Timed G Int64 := Program.op Op.systemNow

/-- `unique_lock lock{mtx_}`. -/
def lockMtx : Timed G Unit := Program.op Op.lock

def unlockMtx : Timed G Unit := Program.op Op.unlock

def condTimedwait (time : Int64) : Timed G Unit := Program.op (Op.condTimedwait time)

def load : Timed G G := Program.op Op.load

def store (g : G) : Timed G Unit := Program.op (Op.store g)

def pred : Timed G Bool := Program.op Op.pred

end

/-- What the clocks, the other threads and the predicate do during a call. A wait ends at any time,
be it by a notification, spuriously or because its time is over. -/
structure Surroundings (G : Type) where
  steady : Clock
  system : ℕ → Int64
  /-- The guarded data as the thread finds them, each time it gets the mutex. -/
  found : ℕ → G
  pred : ℕ → Bool

/-- How far a call has come: how often it has looked at each clock, got the mutex and called the
predicate, and what it has left in the guarded data. -/
structure Progress (G : Type) where
  steady : ℕ
  system : ℕ
  acquired : ℕ
  tested : ℕ
  data : G

section

variable {G : Type} (e : Surroundings G)

/-- The thread gets the mutex, for the first time or at the end of a wait. -/
def Surroundings.acquire (w : Progress G) : Progress G :=
  { w with data := e.found w.acquired, acquired := w.acquired + 1 }

def Surroundings.answer : (o : Op G) → Progress G → o.Answer × Progress G
  | .steadyNow, w       => (e.steady.reading w.steady, { w with steady := w.steady + 1 })
  | .systemNow, w       => (e.system w.system, { w with system := w.system + 1 })
  | .lock, w            => ((), e.acquire w)
  | .unlock, w          => ((), w)
  | .condTimedwait _, w => ((), e.acquire w)
  | .load, w            => (w.data, w)
  | .store g, w         => ((), { w with data := g })
  | .pred, w            => (e.pred w.tested, { w with tested := w.tested + 1 })

def Surroundings.start : Progress G := ⟨0, 0, 0, 0, e.found 0⟩

/-- A call that has looked at the steady clock once, for its deadline. -/
def Surroundings.timed : Progress G := ⟨1, 0, 0, 0, e.found 0⟩

/-- The weakest condition under which a call does as said. -/
abbrev Surroundings.wp {α : Type} (p : Timed G α) (Q : α → Progress G → Prop) :
    Progress G → Prop :=
  (Contract.exact e.answer).wp p Q

end

section

variable {G : Type} {e : Surroundings G} {w : Progress G}

@[simp] lemma wp_steadyNow {Q : Int64 → Progress G → Prop} : e.wp steadyNow Q w ↔
    Q (e.steady.reading w.steady) { w with steady := w.steady + 1 } :=
  Contract.wp_op_exact ..

@[simp] lemma wp_systemNow {Q : Int64 → Progress G → Prop} : e.wp systemNow Q w ↔
    Q (e.system w.system) { w with system := w.system + 1 } :=
  Contract.wp_op_exact ..

@[simp] lemma wp_lockMtx {Q : Unit → Progress G → Prop} : e.wp lockMtx Q w ↔ Q () (e.acquire w) :=
  Contract.wp_op_exact ..

@[simp] lemma wp_unlockMtx {Q : Unit → Progress G → Prop} : e.wp unlockMtx Q w ↔ Q () w :=
  Contract.wp_op_exact ..

@[simp] lemma wp_condTimedwait {Q : Unit → Progress G → Prop} {time : Int64} :
    e.wp (condTimedwait time) Q w ↔ Q () (e.acquire w) :=
  Contract.wp_op_exact ..

@[simp] lemma wp_load {Q : G → Progress G → Prop} : e.wp load Q w ↔ Q w.data w :=
  Contract.wp_op_exact ..

@[simp] lemma wp_store {Q : Unit → Progress G → Prop} {g : G} :
    e.wp (store g) Q w ↔ Q () { w with data := g } :=
  Contract.wp_op_exact ..

@[simp] lemma wp_pred {Q : Bool → Progress G → Prop} : e.wp pred Q w ↔
    Q (e.pred w.tested) { w with tested := w.tested + 1 } :=
  Contract.wp_op_exact ..

end

/-! ### Attempts -/

section

variable {G : Type}

/-- An attempt that lasts until a deadline, made for a duration from now on; `n` is the number of
passes of its loop, after which the attempt is given up without a result. -/
def attemptFor (attemptUntil : Int64 → ℕ → Timed G (Option Bool)) (dur : Int64) (n : ℕ) :
    Timed G (Option Bool) := do
  let now ← steadyNow
  attemptUntil (now + dur) n

/-- An attempt returns `false` only if it has seen the clock `dur` later than at its start. -/
def NeverEarly (e : Surroundings G) (dur : Int64) (attempt : ℕ → Timed G (Option Bool)) : Prop :=
  ∀ n, ((attempt n).run e.answer e.start).1 = some false →
    e.steady.Elapsed dur ((attempt n).run e.answer e.start).2.steady

variable {e : Surroundings G} {dur : Int64} {attemptUntil : Int64 → ℕ → Timed G (Option Bool)}

/-- The attempt when its deadline has been computed. -/
lemma attemptFor_iff {n : ℕ} {Q : Option Bool → Progress G → Prop} :
    Q ((attemptFor attemptUntil dur n).run e.answer e.start).1
        ((attemptFor attemptUntil dur n).run e.answer e.start).2 ↔
      e.wp (attemptUntil (e.steady.deadline dur) n) Q e.timed := by
  rw [← Contract.wp_exact (attemptFor attemptUntil dur n) Q, attemptFor, Contract.wp_bind]
  exact wp_steadyNow

/-- An attempt that gives up at its deadline only, and returns `b` when the deadline is over from
the start: it is never early exactly when the deadline can be represented or `b` is `true`. -/
theorem neverEarly_iff {b : Bool} (hdur : 0 ≤ dur)
    (hlate : ∀ n, e.wp (attemptUntil (e.steady.deadline dur) n)
      (fun r w => r = some false → e.steady.Reached (e.steady.deadline dur) w.steady)
      e.timed)
    (hover : (∀ i, e.steady.deadline dur < e.steady.reading i) → ∀ n,
      e.wp (attemptUntil (e.steady.deadline dur) n) (fun r _ => r = some b ∨ r = none ∧ n = 0)
        e.timed) :
    NeverEarly e dur (attemptFor attemptUntil dur) ↔ e.steady.Fits dur ∨ b = true := by
  by_cases hfits : e.steady.Fits dur
  · refine iff_of_true (fun n => ?_) (.inl hfits)
    rw [Clock.elapsed_iff_reached hdur hfits]
    exact attemptFor_iff.mpr (hlate n)
  · have hresult := fun n => attemptFor_iff.mpr (hover (Clock.deadline_lt hdur hfits) n)
    rw [or_iff_right hfits]
    constructor
    · intro h
      have hone := (hresult 1).resolve_right fun hnone => one_ne_zero hnone.2
      cases b
      · exact absurd (h 1 hone) (Clock.not_elapsed hfits)
      · rfl
    · rintro rfl n hfalse
      rcases hresult n with htrue | ⟨hnone, -⟩
      · rw [htrue] at hfalse
        cases hfalse
      · rw [hnone] at hfalse
        cases hfalse

end

end TimedWait

/-! ### The condition variable -/

inductive CvStatus
  | noTimeout
  | timeout
  deriving DecidableEq, Repr

namespace ConditionVariable

open TimedWait

variable {G : Type}

/-- When the system clock ends a wait for `dur` that begins at `now`. The comparison is made on
floating-point numbers that hold both sides exactly. -/
def waitLimit (now dur : Int64) : Int64 :=
  if Int64.maxValue.toInt - dur.toInt > now.toInt then now + dur else .maxValue

/-- `wait_for` without a predicate. -/
def waitFor (dur : Int64) : Timed G CvStatus :=
  if dur ≤ 0 then return .timeout
  else do
    let cNow ← steadyNow
    let sNow ← systemNow
    condTimedwait (waitLimit sNow dur)
    let now ← steadyNow
    return if now - cNow < dur then .noTimeout else .timeout

/-- `wait_until` without a predicate, for a time on the steady clock. What `wait_for` returns is
not looked at. -/
def waitUntil (time : Int64) : Timed G CvStatus := do
  let now ← steadyNow
  let _ ← waitFor (time - now)
  let now ← steadyNow
  return if now < time then .noTimeout else .timeout

/-- `wait_until` with a predicate, for `n` passes of its loop. -/
def waitUntilPred (time : Int64) : ℕ → Timed G (Option Bool)
  | 0     => return none
  | n + 1 => do
    if ← pred then return some true
    else
      match ← waitUntil time with
      | .timeout   => return some (← pred)
      | .noTimeout => waitUntilPred time n

/-- `wait_for` with a predicate. -/
def waitForPred (dur : Int64) (n : ℕ) : Timed G (Option Bool) := attemptFor waitUntilPred dur n

/-! ### One wait -/

/-- The addition on the system clock stops at the last time there is. -/
lemma toInt_waitLimit {now dur : Int64} (hdur : 0 < dur) :
    (waitLimit now dur).toInt = min (now.toInt + dur.toInt) (2 ^ 63 - 1) := by
  have hpos := Int64.lt_iff_toInt_lt.mp hdur
  have hlow := now.le_toInt
  have hmax : Int64.maxValue.toInt = 2 ^ 63 - 1 := rfl
  rw [Int64.toInt_zero] at hpos
  unfold waitLimit
  split_ifs with h
  · rw [toInt_add_of_fitsLong (fitsLong_iff.mpr ⟨by omega, by omega⟩)]
    exact (min_eq_left (by omega)).symm
  · rw [hmax]
    exact (min_eq_right (by omega)).symm

variable {e : Surroundings G} {w : Progress G} {time dur : Int64} {n : ℕ}

lemma wp_waitFor {Q : CvStatus → Progress G → Prop}
    (h : ∀ status w', w.steady ≤ w'.steady → w'.tested = w.tested → Q status w') :
    e.wp (waitFor dur) Q w := by
  unfold waitFor
  split_ifs
  · exact h _ _ le_rfl rfl
  · simp only [Contract.wp_bind, wp_steadyNow, wp_systemNow, wp_condTimedwait, Contract.wp_pure]
    exact h _ _ (Nat.le_add_right _ 2) rfl

/-- A wait ends with a look at the clock, and by what it sees then it has timed out or not. -/
lemma wp_waitUntil {Q : CvStatus → Progress G → Prop}
    (h : ∀ i w', w.steady ≤ i → w'.steady = i + 1 → w'.tested = w.tested →
      Q (if e.steady.reading i < time then .noTimeout else .timeout) w') :
    e.wp (waitUntil time) Q w := by
  simp only [waitUntil, Contract.wp_bind, wp_steadyNow]
  refine wp_waitFor fun _ w' hle htested => ?_
  simp only [Contract.wp_bind, wp_steadyNow, Contract.wp_pure]
  exact h w'.steady _ (Nat.le_of_succ_le hle) rfl htested

/-! ### The overloads with a predicate -/

/-- One pass of the loop, where `i` is the last look at the clock. -/
lemma wp_pass {Q : Option Bool → Progress G → Prop}
    (htrue : e.pred w.tested = true → Q (some true) { w with tested := w.tested + 1 })
    (hnext : ∀ i (w' : Progress G), w.steady ≤ i → w'.steady = i + 1 → w'.tested = w.tested + 1 →
      e.steady.reading i < time → e.wp (waitUntilPred time n) Q w')
    (hlast : ∀ i (w' : Progress G), e.pred w.tested = false → w'.steady = i + 1 →
      w'.tested = w.tested + 1 → time ≤ e.steady.reading i →
        Q (some (e.pred w'.tested)) { w' with tested := w'.tested + 1 }) :
    e.wp (waitUntilPred time (n + 1)) Q w := by
  simp only [waitUntilPred, Contract.wp_bind, wp_pred]
  split_ifs with htest
  · exact htrue htest
  · rw [Contract.wp_bind]
    refine wp_waitUntil fun i w' hle hi htested => ?_
    by_cases hlt : e.steady.reading i < time
    · rw [if_pos hlt]
      exact hnext i w' hle hi htested hlt
    · simp only [if_neg hlt, Contract.wp_bind, wp_pred, Contract.wp_pure]
      exact hlast i w' (by simpa using htest) hi htested (Int64.not_lt.mp hlt)

/-- A wait gives up at its deadline only. -/
lemma wp_waitUntilPred : e.wp (waitUntilPred time n)
    (fun r w' => r = some false → e.steady.Reached time w'.steady) w := by
  induction n generalizing w with
  | zero => exact fun h => by cases h
  | succ n ih =>
    apply wp_pass
    · exact fun _ h => by cases h
    · exact fun _ _ _ _ _ _ => ih
    · intro i w' _ hi _ hle _
      exact ⟨i, hi ▸ i.lt_succ_self, hle⟩

/-- After its deadline a wait looks at the predicate at most twice. -/
lemma wp_waitUntilPred_over (w : Progress G) (hover : ∀ i, time < e.steady.reading i) :
    e.wp (waitUntilPred time n) (fun r _ =>
      r = some (e.pred w.tested || e.pred (w.tested + 1)) ∨ r = none ∧ n = 0) w := by
  cases n with
  | zero => exact .inr ⟨rfl, rfl⟩
  | succ n =>
    apply wp_pass
    · intro htest
      simp [htest]
    · intro i _ _ _ _ hlt
      exact absurd hlt (Int64.not_lt.mpr (Int64.le_of_lt (hover i)))
    · intro i w' htest _ htested _
      simp [htest, htested]

/-- A wait ends once the clock has reached its deadline. -/
lemma waitUntilPred_returns {k : ℕ} (hk : time ≤ e.steady.reading k) (hn : 0 < n)
    (hpasses : k < w.steady + n) : e.wp (waitUntilPred time n) (fun r _ => r ≠ none) w := by
  induction n generalizing w with
  | zero => cases hn
  | succ n ih =>
    apply wp_pass
    · exact fun _ => Option.some_ne_none _
    · intro i w' hle hi _ hlt
      have hik := Clock.lt_of_reading_lt hlt hk
      exact ih (by omega) (by omega)
    · exact fun _ _ _ _ _ _ => Option.some_ne_none _

end ConditionVariable

end Sync
