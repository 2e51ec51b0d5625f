import SyncLib.Lock.Custody

/-!
# `lock` on spinlocks

`spinlock_mutex` is lawful, and nobody sleeps in it. A thread that spins holds nothing, so one of
the threads that have not finished does not spin in vain.
-/

namespace Sync

open Core

namespace SpinlockMutex

/-- Where a thread is: `yielding` in the loop of `lock`. -/
inductive Place
  | outside
  | yielding
  | holding
  deriving DecidableEq, Repr

/-- A call, or the next pass of the loop. Who holds the mutex does not call `lock` or `try_lock`. -/
inductive Move
  | lock
  | tryLock
  | unlock
  | proceed
  deriving DecidableEq, Repr

/-- `flag_.test_and_set()`, and where the thread goes on when the flag was set. -/
def testAndSet (flag : Bool) (busy : Place) : Bool × Place :=
  (true, if flag then busy else .holding)

/-- One operation on `flag_`. -/
def next (flag : Bool) : Place → Move → Option (Bool × Place)
  | .outside, .lock     => some (testAndSet flag .yielding)
  | .yielding, .proceed => some (testAndSet flag .yielding)
  | .outside, .tryLock  => some (testAndSet flag .outside)
  | .holding, .unlock   => some (false, .outside)
  | _, _                => none

variable {T : Type*}

/-- All threads around one spinlock. No thread sleeps. -/
def monitor : Monitor T Bool Place Empty Move where
  next _ flag p m := (next flag p m).bind silently
  asleepOn _ := none
  wake := id

def begins : MutexCall → Move → Bool
  | .lock, .lock       => true
  | .tryLock, .tryLock => true
  | .unlock, .unlock   => true
  | _, _               => false

/-- What is left of a call that is over. -/
def ended : Place → Option MutexEnd
  | .outside  => some ⟨false, false⟩
  | .holding  => some ⟨true, true⟩
  | .yielding => none

lemma place_of_ended {p : Place} {e : MutexEnd} (h : ended p = some e) :
    p = if e.holds then .holding else .outside := by
  cases p <;> cases h <;> rfl

/-- `spinlock_mutex`, as a mutex. -/
def mutexCode : MutexCode T Bool Place Empty Move where
  monitor := monitor
  start := false
  rest b := if b then .holding else .outside
  begins := begins
  ended _ _ := ended
  rest_of_ended := place_of_ended
  asleepOn_rest _ := rfl

/-- Where a thread is in the middle of a call. -/
def Within (k : MutexCall) (p : Place) : Prop := k = .lock ∧ p = .yielding

/-! ### What callers rely on -/

/-- The flag is set while a thread holds the mutex, which is then the only one. -/
structure Held (c : Config T Bool Place) (has : T → Bool) : Prop where
  holding_iff : ∀ t, has t = true ↔ c.pc t = .holding
  flag_iff : c.shared = true ↔ ∃ t, has t = true
  exclusive : ∀ t u, has t = true → has u = true → t = u

lemma held_start : Held (⟨false, fun _ => .outside⟩ : Config T Bool Place) fun _ => false :=
  ⟨fun t => by simp, by simp, fun t u ht => by cases ht⟩

namespace Held

variable [DecidableEq T] {c c' : Config T Bool Place} {has : T → Bool} {t : T} {p : Place}

/-- The places of all threads, when thread `t` is at `p` and holds the mutex if `b`. -/
lemma holding_iff_update (h : Held c has) {b : Bool} (hb : b = true ↔ p = .holding) (u : T) :
    Function.update has t b u = true ↔ Function.update c.pc t p u = .holding := by
  by_cases hu : u = t
  · rwa [hu, Function.update_self, Function.update_self]
  · rw [Function.update_of_ne hu, Function.update_of_ne hu]
    exact h.holding_iff u

/-- The thread finds the flag clear. -/
lemma acquire (h : Held c has) (hflag : c.shared = false) :
    Held ⟨true, Function.update c.pc t .holding⟩ (Function.update has t true) := by
  have hfree : ∀ u, ¬ has u = true := by
    intro u hu
    rw [h.flag_iff.mpr ⟨u, hu⟩] at hflag
    cases hflag
  have hself : ∀ u, Function.update has t true u = true → u = t := by
    intro u hu
    by_contra hne
    rw [Function.update_of_ne hne] at hu
    exact hfree u hu
  refine ⟨h.holding_iff_update (by simp), ?_, fun u v hu hv => (hself u hu).trans (hself v hv).symm⟩
  exact iff_of_true rfl ⟨t, Function.update_self ..⟩

/-- The thread does not hold the mutex, and still does not. -/
lemma stay (h : Held c has) (ht : has t = false) (hp : p ≠ .holding) :
    Held ⟨c.shared, Function.update c.pc t p⟩ (Function.update has t false) := by
  have hsame : Function.update has t false = has := by
    rw [← ht, Function.update_eq_self]
  refine ⟨h.holding_iff_update (by simp [hp]), ?_, ?_⟩
  · rw [hsame]
    exact h.flag_iff
  · rw [hsame]
    exact h.exclusive

/-- The thread clears the flag. -/
lemma release (h : Held c has) (ht : has t = true) :
    Held ⟨false, Function.update c.pc t .outside⟩ (Function.update has t false) := by
  have hfree : ∀ u, ¬ Function.update has t false u = true := by
    intro u hu
    by_cases hne : u = t
    · rw [hne, Function.update_self] at hu
      cases hu
    · rw [Function.update_of_ne hne] at hu
      exact hne (h.exclusive u t hu ht)
  refine ⟨h.holding_iff_update (by simp), iff_of_false Bool.false_ne_true ?_, fun u v hu => ?_⟩
  · rintro ⟨u, hu⟩
    exact hfree u hu
  · exact absurd hu (hfree u)

/-- What a step of a call owes its caller. -/
def Owes (has : T → Bool) (k : MutexCall) (t : T) (c : Config T Bool Place) (p : Place) : Prop :=
  (∀ e, ended p = some e → k.Leaves (has t) e ∧ Held c (Function.update has t e.holds)) ∧
    (ended p = none → Within k p ∧ Held c (Function.update has t (k.during (has t))))

/-- `test_and_set` in `lock`. -/
lemma lock (h : Held c has) (ht : has t = false) :
    Owes has .lock t ⟨(testAndSet c.shared .yielding).1,
      Function.update c.pc t (testAndSet c.shared .yielding).2⟩
      (testAndSet c.shared .yielding).2 := by
  cases hflag : c.shared with
  | false =>
    refine ⟨?_, fun he => (by cases he)⟩
    rintro e ⟨⟩
    exact ⟨rfl, h.acquire hflag⟩
  | true =>
    refine ⟨fun e he => (by cases he), fun _ => ⟨⟨rfl, rfl⟩, ?_⟩⟩
    have hstay := h.stay ht (p := .yielding) (by decide)
    rw [hflag] at hstay
    rw [show MutexCall.lock.during (has t) = false from ht]
    exact hstay

/-- `test_and_set` in `try_lock`. -/
lemma tryLock (h : Held c has) (ht : has t = false) :
    Owes has .tryLock t ⟨(testAndSet c.shared .outside).1,
      Function.update c.pc t (testAndSet c.shared .outside).2⟩
      (testAndSet c.shared .outside).2 := by
  cases hflag : c.shared with
  | false =>
    refine ⟨?_, fun he => (by cases he)⟩
    rintro e ⟨⟩
    exact ⟨by simp [MutexCall.Leaves, ht], h.acquire hflag⟩
  | true =>
    refine ⟨?_, fun he => (by cases he)⟩
    rintro e ⟨⟩
    have hstay := h.stay ht (p := .outside) (by decide)
    rw [hflag] at hstay
    exact ⟨by simp [MutexCall.Leaves, ht], hstay⟩

/-- A step of a call ends it as its caller relies on, or goes on with it. -/
lemma goes [Fintype T] (h : Held c has) {m : Move} {k : MutexCall} {w : Option T} {flag : Bool}
    {p' : Place} {sig : Signal Empty}
    (hgoes : (mutexCode (T := T)).Goes Within k (has t) (c.pc t) m)
    (hn : monitor.next t c.shared (c.pc t) m = some (flag, p', sig))
    (hd : monitor.deliver ⟨flag, Function.update c.pc t p'⟩ sig w = some c') :
    Owes has k t c' p' := by
  obtain ⟨⟨flag', q⟩, hnext, hr⟩ := Option.bind_eq_some_iff.mp hn
  cases hr
  obtain ⟨-, rfl⟩ := Monitor.deliver_none.mp hd
  have hiff := h.holding_iff t
  cases hp : c.pc t with
  | yielding =>
    rw [hp] at hnext hiff hgoes
    have ht : has t = false := by simpa using hiff
    obtain rfl : k = .lock := by
      rcases hgoes with ⟨hrest, -⟩ | ⟨hk, -⟩
      · rw [ht] at hrest
        cases hrest
      · exact hk
    cases m with
    | proceed =>
      cases hnext
      exact h.lock ht
    | lock | tryLock | unlock => cases hnext
  | outside =>
    rw [hp] at hnext hiff hgoes
    have ht : has t = false := by simpa using hiff
    rcases hgoes with ⟨-, hbegins, -⟩ | ⟨-, hyield⟩
    · cases m with
      | lock =>
        cases k <;> cases hbegins
        cases hnext
        exact h.lock ht
      | tryLock =>
        cases k <;> cases hbegins
        cases hnext
        exact h.tryLock ht
      | unlock | proceed => cases hnext
    · cases hyield
  | holding =>
    rw [hp] at hnext hiff hgoes
    have ht : has t = true := hiff.mpr rfl
    rcases hgoes with ⟨-, hbegins, -⟩ | ⟨-, hyield⟩
    · cases m with
      | unlock =>
        cases k <;> cases hbegins
        cases hnext
        refine ⟨?_, fun he => (by cases he)⟩
        rintro e ⟨⟩
        exact ⟨rfl, h.release ht⟩
      | lock | tryLock | proceed => cases hnext
    · cases hyield

end Held

lemma not_within_rest {k : MutexCall} {b : Bool} :
    ¬ Within k (if b then .holding else .outside) := by
  rintro ⟨-, h⟩
  cases b <;> cases h

/-- `spinlock_mutex` is lawful. -/
def lawful [Fintype T] [DecidableEq T] : (mutexCode (T := T)).Lawful where
  Inv := Held
  within := Within
  start := held_start
  step h hgoes hn hd := h.goes hgoes hn hd
  within_wake h := h
  not_within_rest := not_within_rest
  lock_of_asleep _ h := absurd rfl h
  exclusive h ht hu := h.exclusive _ _ ht hu
  sleeper _ h := absurd rfl h

end SpinlockMutex

namespace Lock

namespace WithMutexes

variable {T : Type*} {N : Type} [Fintype T] [DecidableEq T] [DecidableEq N]

/-- The flags tell who holds the spinlocks. A thread that spins holds nothing, and while some thread
has not finished, one of them does not spin on a spinlock that is taken. -/
structure SpinLaw (c : Config T (N → Bool) (Place N SpinlockMutex.Place)) : Prop where
  apart : ∀ t u ms ms', t ≠ u → (c.pc t).phase = .holding ms → (c.pc u).phase = .holding ms' →
    ms.Disjoint ms'
  flag : ∀ n, c.shared n = true ↔ ∃ t, (c.pc t).has n = true
  exclusive : ∀ n t u, (c.pc t).has n = true → (c.pc u).has n = true → t = u
  empty_handed : ∀ t n, (c.pc t).inner = some (n, .yielding) → ∀ n', (c.pc t).has n' = false
  live : (∃ t, (c.pc t).phase ≠ .idle) →
    ∃ t, (c.pc t).phase ≠ .idle ∧ ∀ n, (c.pc t).inner = some (n, .yielding) → c.shared n = false

/-- Threads that lock selections of spinlocks, in every reachable state. -/
theorem spinlocks_law {c : Config T (N → Bool) (Place N SpinlockMutex.Place)}
    (h : (monitor SpinlockMutex.mutexCode).machine.Reachable (start SpinlockMutex.mutexCode) c) :
    SpinLaw c := by
  have hinv : Inv SpinlockMutex.lawful c :=
    h.invariant (I := Inv SpinlockMutex.lawful) inv_start fun _ _ _ hu _ hs => hu.step hs
  have hflag : ∀ n, c.shared n = true ↔ ∃ t, (c.pc t).has n = true :=
    fun n => (hinv.lawful n).flag_iff
  have hempty : ∀ t n, (c.pc t).inner = some (n, .yielding) → ∀ n', (c.pc t).has n' = false := by
    intro t n hinner
    obtain ⟨k, hcall, rfl, -⟩ := (hinv.tidy t).inner n _ hinner
    exact (hinv.tidy t).empty_of_lock hcall
  refine ⟨hinv.law.apart, hflag, fun n t u => (hinv.lawful n).exclusive t u, hempty, ?_⟩
  rintro ⟨t, ht⟩
  by_cases hspin : ∀ n, (c.pc t).inner = some (n, .yielding) → c.shared n = false
  · exact ⟨t, ht, hspin⟩
  · -- who holds the spinlock that `t` spins on is not spinning
    obtain ⟨n, hn⟩ := not_forall.mp hspin
    obtain ⟨-, htaken⟩ := Classical.not_imp.mp hn
    obtain ⟨u, hu⟩ := (hflag n).mp (by simpa using htaken)
    refine ⟨u, (hinv.tidy u).ne_idle_of_has hu, fun n' hinner => ?_⟩
    rw [hempty u n' hinner n] at hu
    cases hu

/-- Two threads lock two spinlocks in opposite orders. The second one has given its spinlock back
and spins on the other, the first one holds both. -/
theorem spinlocks_law_two : ∃ c : Config (Fin 2) (Fin 2 → Bool) (Place (Fin 2) SpinlockMutex.Place),
    (c.pc 0).phase.isHolding = true ∧ (c.pc 1).inner = some (0, .yielding) ∧ SpinLaw c := by
  obtain ⟨c, hc, hp⟩ := Machine.exists_reachable_of_run
    (M := (monitor (SpinlockMutex.mutexCode (T := Fin 2))).machine)
    (s := start (N := Fin 2) (SpinlockMutex.mutexCode (T := Fin 2)))
    [⟨0, .own (.lock 0 1 []), none⟩, ⟨0, .step .lock, none⟩, ⟨1, .own (.lock 1 0 []), none⟩,
      ⟨1, .step .lock, none⟩, ⟨1, .step .tryLock, none⟩, ⟨1, .step .unlock, none⟩,
      ⟨1, .own (.proceed true), none⟩, ⟨1, .step .lock, none⟩, ⟨0, .step .tryLock, none⟩,
      ⟨0, .own (.proceed true), none⟩]
    (fun c => (c.pc 0).phase.isHolding && (c.pc 1).inner == some (0, .yielding))
    (by decide +kernel)
  simp only [Bool.and_eq_true, beq_iff_eq] at hp
  exact ⟨c, hp.1, hp.2, spinlocks_law hc⟩

end WithMutexes

end Lock

end Sync
